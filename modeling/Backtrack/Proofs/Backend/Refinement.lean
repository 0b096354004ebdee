import Backtrack.Proofs.Parser.Simulation
import Backtrack.Proofs.Reader.Mirror

/-!
# Proofs/Backend/Refinement — a bounded or failing reader never yields a wrong parse

    array cursor over all that is delivered   ──parser──▸   result
              │InStep                                         │the same
            reader                            ──parser──▸   result      or  read / restore

Between two operations a reader is in step with the array cursor.  Two of its operations may break
step, and both end the run: a byte that cannot be loaded is fatal by itself, and a step back into
what was forgotten is made only by a rewind, which makes the refusal fatal.  A recoverable failure,
which an alternative would answer by trying something else, is never one the array cursor does not
have.
-/

namespace Backtrack.Reader

open Backtrack.Action (Simulated)

variable {N : Type → Type} {α : Type} {source : Source} {config : ReaderConfig} {r : Reader}

/-- The class of parsers that leave stepping back to attempts and fatal failures alone. -/
def forwardOnly : Feature → Prop
  | .back => False
  | .observe => False
  | _ => True

/-- **The reader could not come by a byte**: it failed to load it, or had forgotten it. -/
def InputLost (e : StreamError) : Prop :=
  (∃ position cause, e = .read position cause) ∨ ∃ target cause, e = .restore target cause

theorem simulated_next {lost : StreamError → Prop}
    (hlost : ∀ position cause, lost (.read position cause)) :
    Simulated (InStep source config) lost (Action.ofOp Cursor.next)
      (Action.ofOp (Cursor.next : Reader → _)) := by
  intro m r h
  rcases h.next with ⟨heq, hstep⟩ | ⟨b, e, -, hfail, -⟩
  · exact .of_eq heq hstep
  · change Action.Follows _ _ _ (some (r.next.1, r.next.2))
    rw [hfail]
    exact .astray (hlost _ e)

/-- A refused step back is fatal where it must not fail. -/
theorem simulated_must_back (target n : Nat) :
    Simulated (InStep source config) InputLost (Action.must target (Cursor.back n))
      (Action.must target (Cursor.back n : Reader → _)) := by
  intro m r h
  rcases h.back n with ⟨heq, hstep⟩ | ⟨-, -, -, heq⟩
  · have hback : Action.Follows (InStep source config) InputLost
        (Action.ofOp (Cursor.back n) m) (Action.ofOp (Cursor.back n) r) := .of_eq heq hstep
    exact hback.recover fun e => .fail _
  · have hrefused : Cursor.back n r = (.error (r.backPastWindow n), r) := heq
    rw [Action.must_of_refusal target hrefused]
    exact .astray (.inr ⟨target, _, rfl⟩)

/-- **A reader simulates the array cursor over all that is delivered**, for parsers that only go
forward, unless it loses its input. -/
theorem simulates_array (source : Source) (config : ReaderConfig) :
    ParserSimulation forwardOnly (InStep source config) InputLost where
  atEnd_eq := InStep.atEnd_eq
  pos_eq := InStep.pos_eq
  peek _ _ h := .of_eq h.peek_eq h
  next := simulated_next fun _ _ => .inl ⟨_, _, rfl⟩
  rewind := Simulated.rewind InStep.pos_eq (simulated_next fun _ _ => .inl ⟨_, _, rfl⟩)
    simulated_must_back
  back := False.elim
  observe := False.elim

/-- **A bounded or failing reader never yields a wrong parse.**  Whatever a parser yields on the
array cursor over all that is delivered, it yields on the reader too, with the same view of the
cursor left; or it ends in the fatal failure to read, or to return to, a byte.  It yields nothing
else. -/
theorem yields_same_or_input_lost {G : Grammar N UInt8} (hG : G.Within forwardOnly)
    {p : Parser N UInt8 α} (hp : p.Within forwardOnly) (h : ofSource source config = .ok r)
    {x : Except Failure α} {m : ArrayCursor UInt8}
    (hrun : G.Yields p (ArrayCursor.ofList (source.delivered config.chunkSize)) x m) :
    ∃ x' r', G.Yields p r x' r' ∧ (∀ x'' r'', G.Yields p r x'' r'' → x'' = x' ∧ r'' = r') ∧
      ((x' = x ∧ Cursor.view r' = Cursor.view m) ∨
        ∃ e, x' = .error (.stream e) ∧ InputLost e) := by
  have hunique : ∀ {x' r'}, G.Yields p r x' r' →
      ∀ x'' r'', G.Yields p r x'' r'' → x'' = x' ∧ r'' = r' :=
    fun h' _ _ h'' => h''.unique h'
  rcases (simulates_array source config).yields hG hp (InStep.start h) hrun with
    ⟨r', hstep, hyields⟩ | ⟨e, r', hlost, hyields⟩
  · exact ⟨x, r', hyields, hunique hyields, .inl ⟨rfl, hstep.view_eq.symm⟩⟩
  · exact ⟨_, r', hyields, hunique hyields, .inr ⟨e, rfl, hlost⟩⟩

/-! ## Brackets that are not closed

A parser that has to go back to the first of two open brackets, on a reader that has forgotten it by
then. -/

/-- One rule, for the depth of a bracket. -/
inductive BracketRule : Type → Type where
  | depth : BracketRule Nat

/-- The depth of what stands in matching brackets; nothing is as good as no bracket. -/
def brackets : Grammar BracketRule UInt8 where
  body
    | .depth =>
      .bind (.optional (.bind (.oneOf [40]) fun _ => .bind (.call .depth) fun d =>
        .bind (.oneOf [41]) fun _ => .pure (d + 1))) fun found => .pure (found.getD 0)

theorem within_brackets {allowed : Feature → Prop} : brackets.Within allowed
  | _, .depth => ⟨⟨Parser.within_test _ _, fun _ => ⟨trivial, fun _ =>
      ⟨Parser.within_test _ _, fun _ => trivial⟩⟩⟩, fun _ => trivial⟩

/-- Two open brackets and a letter, byte by byte. -/
def openBrackets : Source := .ofBytes [40, 40, 97] [.fail ⟨.interrupted, "again"⟩, .upTo 1]

/-- A reader of it that keeps one byte. -/
def openBracketsReader : Reader := ⟨⟨[], [40, 97], 2, 1⟩, ⟨1, some 1⟩, #[40], 0, 0, false⟩

theorem openBrackets_input_lost :
    ofSource openBrackets ⟨1, some 1⟩ = .ok openBracketsReader ∧
      brackets.Yields (.call .depth) (ArrayCursor.ofList (openBrackets.delivered 1)) (.ok 0)
        (ArrayCursor.ofList (openBrackets.delivered 1)) ∧
      ∃ e r', brackets.Yields (.call .depth) openBracketsReader (.error (.stream e)) r' ∧
        InputLost e := by
  have hsource : ofSource openBrackets ⟨1, some 1⟩ = .ok openBracketsReader := by rfl
  have hrun : brackets.Yields (.call .depth) (ArrayCursor.ofList (openBrackets.delivered 1)) (.ok 0)
      (ArrayCursor.ofList (openBrackets.delivered 1)) := ⟨4, by rfl⟩
  have hclass : (Parser.call .depth : Parser BracketRule UInt8 Nat).Within forwardOnly := trivial
  have hfails : (brackets.run 4 (.call .depth) openBracketsReader).map (·.1.isOk) = some false := by
    decide +kernel
  obtain ⟨⟨y, r''⟩, hy, hnot⟩ := Option.map_eq_some_iff.1 hfails
  obtain ⟨x, r', hyields, hunique, hresult⟩ :=
    yields_same_or_input_lost within_brackets hclass hsource hrun
  rcases hresult with ⟨rfl, -⟩ | ⟨e, rfl, hlost⟩
  · -- the value of the array cursor is not what the reader yields
    obtain ⟨rfl, -⟩ := hunique y r'' ⟨4, hy⟩
    cases hnot
  · exact ⟨hsource, hrun, e, r', hyields, hlost⟩

end Backtrack.Reader
