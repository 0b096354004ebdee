import Backtrack.Proofs.Parser.Simulation
import Backtrack.Proofs.Reader.Mirror

/-!
# Proofs/Backend/Equivalence — the same parse on every kind of cursor

    zipper over D   ═══   array over D   ═══   unbounded reader of a source that delivers D

No two of them can be told apart by a parser, whatever it does: step back by itself, ask for its
position, turn failures into values.  The zipper and the array are both the plain index into `D`.
An unbounded reader forgets nothing, so no step back is refused, and a source without failures loses
no byte; what is left of the reader is that same index.  Neither the chunk size nor the pieces the
source hands out are anywhere to be seen.
-/

namespace Backtrack

open Backtrack.Action (Simulated)

variable {N : Type → Type} {α τ : Type}

/-! ## Zipper and array -/

/-- The same data and the same position, in two layouts. -/
structure SamePlace (l : ListCursor τ) (m : ArrayCursor τ) : Prop where
  toList_eq : l.toList = m.toList
  pos_eq : l.pos = m.pos

namespace SamePlace

variable {l : ListCursor τ} {m : ArrayCursor τ}

theorem next (h : SamePlace l m) : l.next.1 = m.next.1 ∧ SamePlace l.next.2 m.next.2 := by
  have heq := l.next_eq_nextAt
  rw [h.toList_eq, h.pos_eq, ← m.next_eq_nextAt, Prod.mk.injEq] at heq
  refine ⟨heq.1, ?_, heq.2⟩
  rw [l.toList_next, m.toList_next, h.toList_eq]

theorem back (h : SamePlace l m) (n : Nat) :
    (l.back n).1 = (m.back n).1 ∧ SamePlace (l.back n).2 (m.back n).2 := by
  have heq := l.back_eq_backFrom n
  rw [h.pos_eq, ← m.back_eq_backFrom, Prod.mk.injEq] at heq
  refine ⟨heq.1, ?_, heq.2⟩
  rw [l.toList_back, m.toList_back, h.toList_eq]

end SamePlace

/-- **The array cursor simulates the zipper**, for all parsers and without loss. -/
theorem array_simulates_list :
    ParserSimulation (τ := τ) (fun _ => True) SamePlace fun _ => False where
  atEnd_eq {l m} h := by
    rw [Bool.eq_iff_iff, l.atEnd_iff, m.atEnd_iff, h.toList_eq, h.pos_eq]
  pos_eq := SamePlace.pos_eq
  peek l m h := by
    refine .of_eq ?_ h
    change l.peek = m.peek
    rw [l.peek_eq_peekAt, m.peek_eq_peekAt, h.toList_eq, h.pos_eq]
  next _ _ h := .of_eq h.next.1 h.next.2
  rewind := Simulated.rewind SamePlace.pos_eq (fun _ _ h => .of_eq h.next.1 h.next.2)
    fun _ n => .recover (fun _ _ h => .of_eq (h.back n).1 (h.back n).2) fun _ => .fail _
  back _ n _ _ h := .of_eq (h.back n).1 (h.back n).2
  observe _ _ := id

/-! ## Array and unbounded reader -/

namespace Reader

variable {source : Source} {config : ReaderConfig} {r : Reader} {m : ArrayCursor UInt8}

/-- In step, and over a source that will not fail. -/
structure InSteadyStep (source : Source) (config : ReaderConfig) (m : ArrayCursor UInt8)
    (r : Reader) : Prop extends InStep source config m r where
  steady : r.source.Steady

/-- Taking a byte leaves some of the script behind. -/
theorem next_script_suffix (r : Reader) : r.next.2.source.script <:+ r.source.script := by
  have htaken := taken_next r
  generalize r.next = out at htaken
  cases htaken with
  | ended => exact List.suffix_refl _
  | kept => exact List.suffix_refl _
  | refilled _ _ _ hfetch =>
    rw [source_trim]
    exact (Source.fetchHanded_of_fetch hfetch).script_suffix
  | failed _ _ _ hfetch => exact (Source.fetchFailed_of_fetch hfetch).script_suffix

theorem InSteadyStep.next (h : InSteadyStep source config m r) :
    m.next.1 = r.next.1 ∧ InSteadyStep source config m.next.2 r.next.2 := by
  rcases h.toInStep.next with ⟨heq, hstep⟩ | ⟨b, e, -, -, ⟨src', hfetch⟩, -⟩
  · exact ⟨heq, hstep, h.steady.of_suffix r.next_script_suffix⟩
  · exact absurd (Source.fetchFailed_of_fetch hfetch) h.steady.not_fetchFailed

theorem InSteadyStep.back (h : InSteadyStep source config m r)
    (hunbounded : config.maxRetained = none) (n : Nat) :
    (m.back n).1 = (r.back n).1 ∧ InSteadyStep source config (m.back n).2 (r.back n).2 := by
  rcases h.toInStep.back n with ⟨heq, hstep⟩ | ⟨-, hwindow, -⟩
  · refine ⟨heq, hstep, ?_⟩
    rw [source_back]
    exact h.steady
  · -- an unbounded reader has forgotten nothing
    rw [h.invariant.base_eq_zero hunbounded] at hwindow
    exact absurd hwindow (Nat.not_lt_zero _)

/-- **An unbounded reader of a steady source simulates the array cursor**, for all parsers and
without loss. -/
theorem unbounded_simulates_array (source : Source) (config : ReaderConfig)
    (hunbounded : config.maxRetained = none) :
    ParserSimulation (fun _ => True) (InSteadyStep source config) fun _ => False where
  atEnd_eq h := h.atEnd_eq
  pos_eq h := h.pos_eq
  peek _ _ h := .of_eq h.peek_eq h
  next _ _ h := .of_eq h.next.1 h.next.2
  rewind := Simulated.rewind (fun h => h.pos_eq) (fun _ _ h => .of_eq h.next.1 h.next.2)
    fun _ n => .recover (fun _ _ h => .of_eq (h.back hunbounded n).1 (h.back hunbounded n).2)
      fun _ => .fail _
  back _ n _ _ h := .of_eq (h.back hunbounded n).1 (h.back hunbounded n).2
  observe _ _ := id

/-- Making a reader of a steady source works out if the configuration does. -/
theorem exists_ofSource (hsteady : source.Steady) (hvalid : config.fault? = none) :
    ∃ r, ofSource source config = .ok r ∧ r.source.Steady := by
  rcases hfetch : source.fetch config.chunkSize with ⟨e | bytes, src'⟩
  · exact absurd (Source.fetchFailed_of_fetch hfetch) hsteady.not_fetchFailed
  · refine ⟨_, ofSource_eq_ok_iff.2 ⟨hvalid, bytes, src', hfetch, rfl⟩, ?_⟩
    rw [source_trim]
    exact hsteady.of_suffix (Source.fetchHanded_of_fetch hfetch).script_suffix

end Reader

/-- **The same parse on every kind of cursor.**  Over a source that delivers `D`, with any chunk
size in range and everything kept, a reader can be made; and with any budget every parser shows on
it what it shows on the array cursor and on the zipper over `D`: the same result and the same view
of the cursor left, or that the budget is spent. -/
theorem shown_run_eq_of_delivers (G : Grammar N UInt8) (n : Nat) (p : Parser N UInt8 α)
    {D : List UInt8} {chunkSize : Nat} (hpos : 0 < chunkSize)
    (hmax : chunkSize ≤ ReaderConfig.maxChunkSize) {source : Source}
    (hsource : source.Delivers chunkSize D) :
    ∃ r, Reader.ofSource source ⟨chunkSize, none⟩ = .ok r ∧
      shown (G.run n p r) = shown (G.run n p (ArrayCursor.ofList D)) ∧
      shown (G.run n p (ListCursor.ofList D)) = shown (G.run n p (ArrayCursor.ofList D)) := by
  have hvalid : (⟨chunkSize, none⟩ : ReaderConfig).fault? = none :=
    (ReaderConfig.fault?_eq_none_iff _).2 ⟨hpos, hmax, nofun⟩
  obtain ⟨r, hr, hsteady⟩ := Reader.exists_ofSource hsource.steady hvalid
  have hstart := Reader.InStep.start hr
  rw [hsource.delivered_eq] at hstart
  have hall : G.Within fun _ => True := G.within_of_all fun _ => trivial
  have hp : p.Within fun _ => True := p.within_of_all fun _ => trivial
  refine ⟨r, hr, ?_, ?_⟩
  · have hsim := Reader.unbounded_simulates_array source ⟨chunkSize, none⟩ rfl
    exact (hsim.shown_run_eq (fun _ => id) hall hp n ⟨hstart, hsteady⟩).symm
  · exact array_simulates_list.shown_run_eq (fun _ => id) hall hp n ⟨rfl, rfl⟩

/-- A parser that steps back by itself, once too far, and makes a value of the refusal. -/
def overstepping : Parser (fun _ => Empty) UInt8 Unit :=
  .bind .next fun _ => .bind (.observe (.back 2)) fun _ => .unget

/-- The parse ends where it began, wherever it is run. -/
theorem shown_run_overstepping :
    let source := Source.ofBytes [97, 98, 99] [.upTo 1, .fail ⟨.interrupted, "again"⟩, .upTo 2]
    let G : Grammar (fun _ => Empty) UInt8 := ⟨fun r => nomatch r⟩
    source.Delivers 2 [97, 98, 99] ∧ ∃ r, Reader.ofSource source ⟨2, none⟩ = .ok r ∧
      shown (G.run 1 overstepping r)
        = shown (G.run 1 overstepping (ArrayCursor.ofList [97, 98, 99])) ∧
      shown (G.run 1 overstepping (ListCursor.ofList [97, 98, 99]))
        = shown (G.run 1 overstepping (ArrayCursor.ofList [97, 98, 99])) ∧
      shown (G.run 1 overstepping (ArrayCursor.ofList [97, 98, 99]))
        = some (.ok (), ⟨0, false, .ok 97⟩) := by
  intro source G
  have hsource : source.Delivers 2 [97, 98, 99] := Source.delivers_ofBytes (by decide) <| by
    simp [Reply.isInterrupted]
  obtain ⟨r, hr, hreader, hzipper⟩ :=
    shown_run_eq_of_delivers G 1 overstepping (by decide) (by decide) hsource
  exact ⟨hsource, r, hr, hreader, hzipper, rfl⟩

end Backtrack
