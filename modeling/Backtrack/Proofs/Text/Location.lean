import Mathlib.Algebra.BigOperators.Group.List.Defs
import Mathlib.Algebra.Order.SuccPred
import Mathlib.Data.Nat.SuccPred
import Mathlib.Data.Prod.Lex
import Backtrack.Text.Location

/-!
# Proofs/Text/Location — a location is a position, told by its line

    position     0    1    2    3    4    5
    byte         a    b    ⏎    ⏎    c    d
    location    1:1  1:2  1:3  2:1  3:1  3:2

The line counts the newlines passed, the column the bytes since the last of them: two computations
over the same bytes.  One byte further on they agree about what happens (`ofPosition_succ`): behind
a newline a line begins, behind any other byte the column is one more.  Either way the location
grows, so locations are ordered as the positions are, and the column counts on from where the line
starts.
-/

namespace Backtrack.Location

variable {input : List UInt8} {p : Nat}

/-! ## The order -/

/-- A location as a pair, in the order of the dictionary. -/
def key (l : Location) : ℕ ×ₗ ℕ := toLex (l.line, l.column)

/-- By line first, then by column. -/
theorem lt_iff_key_lt {a b : Location} : a < b ↔ a.key < b.key := by
  change (compare a.line b.line).then (compare a.column b.column) = .lt ↔ _
  rw [Ordering.then_eq_lt, compare_lt_iff_lt, compare_lt_iff_lt, compare_eq_iff_eq, key, key,
    Prod.Lex.toLex_lt_toLex]

/-! ## One byte further on -/

/-- **The location behind a byte.** -/
def past (l : Location) (b : UInt8) : Location :=
  if b = Byte.newline then ⟨l.line + 1, 1⟩ else ⟨l.line, l.column + 1⟩

theorem key_lt_key_past (l : Location) (b : UInt8) : l.key < (l.past b).key := by
  rw [past]
  split
  · exact Prod.Lex.toLex_lt_toLex.2 (.inl (Nat.lt_succ_self _))
  · exact Prod.Lex.toLex_lt_toLex.2 (.inr ⟨rfl, Nat.lt_succ_self _⟩)

theorem ofPosition_zero (input : List UInt8) : ofPosition input 0 = ⟨1, 1⟩ := rfl

/-- **The line and the column agree about what a byte does.** -/
theorem ofPosition_succ (h : p < input.length) :
    ofPosition input (p + 1) = (ofPosition input p).past input[p] := by
  rw [ofPosition, ofPosition, past, List.take_succ_eq_append_getElem h, List.count_append,
    List.reverse_append, List.reverse_singleton, List.singleton_append]
  by_cases hb : input[p] = Byte.newline
  · simp [hb]
  · simp [hb]

/-- Past the end is at the end. -/
theorem ofPosition_of_length_le (h : input.length ≤ p) :
    ofPosition input p = ofPosition input input.length := by
  rw [ofPosition, ofPosition, List.take_of_length_le h, List.take_length]

/-- **Locations grow with the positions.** -/
theorem strictMonoOn_key (input : List UInt8) :
    StrictMonoOn (fun p => (ofPosition input p).key) (Set.Iic input.length) := by
  refine strictMonoOn_of_lt_add_one Set.ordConnected_Iic fun p _ _ hsucc => ?_
  rw [ofPosition_succ (Nat.lt_of_succ_le hsucc)]
  exact key_lt_key_past _ _

/-! ## Where a line starts -/

/-- **The position a line starts at**: just behind the newline that ends the line before it, and the
first line at zero. -/
def lineStart (input : List UInt8) : Nat → Nat
  | 0 => 0
  | 1 => 0
  | line + 2 => input.idxOfNth Byte.newline line + 1

/-- Behind a newline, the next line starts. -/
theorem lineStart_of_newline (h : p < input.length) (hb : input[p] = Byte.newline) :
    lineStart input ((ofPosition input p).line + 1) = p + 1 := by
  have hbeq : (input[p] == Byte.newline) = true := beq_iff_eq.2 hb
  have hpassed := List.idxOfNth_countBefore_of_lt_length_of_beq hbeq
  rw [List.countBefore_eq_count_take] at hpassed
  exact congrArg (· + 1) hpassed

/-- **The column counts on from where the line starts.** -/
theorem lineStart_add_column (h : p ≤ input.length) :
    lineStart input (ofPosition input p).line + (ofPosition input p).column = p + 1 := by
  induction p with
  | zero => rfl
  | succ p ih =>
    rw [ofPosition_succ h, past]
    by_cases hb : input[p] = Byte.newline
    · rw [if_pos hb, lineStart_of_newline h hb]
    · rw [if_neg hb, ← Nat.add_assoc, ih (Nat.le_of_succ_le h)]

/-- **Locations are positions, told by their line.**  Within the input they are ordered as the
positions are, and different positions have different ones; the position is where the line starts,
that is just behind the newline before it, and from there as many bytes as the column says, the
first being in column one.  They start at `1:1`, go to the next line behind a newline and to the
next column behind any other byte, and stay where they are past the end. -/
theorem locations_ordered_as_positions (input : List UInt8) :
    (∀ p ≤ input.length, ∀ q ≤ input.length,
      (p < q ↔ ofPosition input p < ofPosition input q) ∧
      (ofPosition input p = ofPosition input q → p = q)) ∧
    (∀ p ≤ input.length,
      p + 1 = lineStart input (ofPosition input p).line + (ofPosition input p).column) ∧
    ofPosition input 0 = ⟨1, 1⟩ ∧
    (∀ (p : Nat) (h : p < input.length), ofPosition input (p + 1)
      = if input[p] = Byte.newline then ⟨(ofPosition input p).line + 1, 1⟩
        else ⟨(ofPosition input p).line, (ofPosition input p).column + 1⟩) ∧
    ∀ p, input.length ≤ p → ofPosition input p = ofPosition input input.length := by
  have hmono := strictMonoOn_key input
  refine ⟨fun p hp q hq => ⟨?_, fun heq => ?_⟩, fun p hp => (lineStart_add_column hp).symm,
    ofPosition_zero input, fun p h => ofPosition_succ h, fun p => ofPosition_of_length_le⟩
  · rw [lt_iff_key_lt]
    exact (hmono.lt_iff_lt hp hq).symm
  · exact hmono.injOn hp hq (congrArg key heq)

/-- An empty line first: its newline is at `1:1`, the byte behind it at `2:1`, and the end, reached
behind another newline, at `3:1`. -/
theorem locations_around_newlines :
    let input : List UInt8 := [Byte.newline, 97, Byte.newline]
    (0 < 1 ↔ ofPosition input 0 < ofPosition input 1) ∧
      ofPosition input 1 = ⟨2, 1⟩ ∧ ofPosition input 3 = ⟨3, 1⟩ ∧
      2 + 1 = lineStart input (ofPosition input 2).line + (ofPosition input 2).column ∧
      ofPosition input 7 = ofPosition input 3 := by
  intro input
  obtain ⟨horder, hstart, -, hnext, hend⟩ := locations_ordered_as_positions input
  exact ⟨(horder 0 (by decide) 1 (by decide)).1, hnext 0 (by decide), hnext 2 (by decide),
    hstart 2 (by decide), hend 7 (by decide)⟩

end Backtrack.Location
