import Backtrack.Failure
import Backtrack.Cursor.Basic
import Backtrack.Cursor.Rewind
import Backtrack.Cursor.Array
import Backtrack.Cursor.List
import Backtrack.Cursor.Faulty
import Backtrack.Source
import Backtrack.Reader.Config
import Backtrack.Reader.Basic
import Backtrack.Reader.File
import Backtrack.Action.Basic
import Backtrack.Action.Attempt
import Backtrack.Action.Repeat
import Backtrack.Action.Choice
import Backtrack.Parser.Basic
import Backtrack.Parser.Symbol
import Backtrack.Parser.Run
import Backtrack.Number.Binary64
import Backtrack.Number.Decimal
import Backtrack.Text.Byte
import Backtrack.Text.Literal
import Backtrack.Text.Location
import Backtrack.Text.Value
import Backtrack.Proofs.Source.Delivery
import Backtrack.Proofs.Source.History
import Backtrack.Proofs.Cursor.Call
import Backtrack.Proofs.Reader.Invariant
import Backtrack.Proofs.Reader.Reachable
import Backtrack.Proofs.Cursor.Loaded
import Backtrack.Proofs.Reader.Mirror
import Backtrack.Proofs.Reader.Lockstep
import Backtrack.Proofs.Reader.Visited
import Backtrack.Proofs.Action.Simulation
import Backtrack.Proofs.Action.Trace
import Backtrack.Proofs.Action.Sound
import Backtrack.Proofs.Action.Inversion
import Backtrack.Proofs.Cursor.Honest
import Backtrack.Proofs.Cursor.Ahead
import Backtrack.Proofs.Parser.Class
import Backtrack.Proofs.Parser.Simulation
import Backtrack.Proofs.Parser.Yields
import Backtrack.Proofs.Parser.Trace
import Backtrack.Proofs.Parser.Position
import Backtrack.Proofs.Backend.Refinement
import Backtrack.Proofs.Backend.Equivalence
import Backtrack.Proofs.Backend.Backtracking
import Backtrack.Proofs.Reader.Retention
import Backtrack.Proofs.Reader.Laziness
import Backtrack.Proofs.Reader.Replay
import Backtrack.Proofs.Backend.LookAhead
import Backtrack.Proofs.Backend.Oblivious
import Backtrack.Proofs.Backend.Greedy
import Backtrack.Proofs.Backend.Separated
import Backtrack.Proofs.Backend.Choice
import Backtrack.Proofs.Backend.Between
import Backtrack.Proofs.Backend.Scan
import Backtrack.Proofs.Text.Matching
import Backtrack.Proofs.Text.Words
import Backtrack.Proofs.Text.Literal
import Backtrack.Proofs.Text.Integer
import Backtrack.Proofs.Text.Number
import Backtrack.Proofs.Reader.Nearby
import Backtrack.Proofs.Reader.Outcome
import Backtrack.Proofs.Backend.Absorption
import Backtrack.Proofs.Number.Pattern
import Backtrack.Proofs.Number.Rounding
import Backtrack.Proofs.Text.AllOrNothing
import Backtrack.Proofs.Text.Double
import Backtrack.Proofs.Text.Location
