import Backtrack.Parser.Run
import Backtrack.Text.Value

/-!
# Proofs/Parser/Class — classes of parsers, by what they may do

All parsers sequence, call rules, look, take, fail, go on after a recoverable failure, try and
repeat.  Four things that not every statement about parsers allows for are features of their own,
and a class is a set of allowed features:

    back       steps back by itself, without an attempt around it
    position   asks where it is, or where a failure is that it goes on after
    raise      fails recoverably about a position of its own choice
    observe    turns failures into values, fatal ones included

The library's own parsers need none of them, so they are in every class.
-/

namespace Backtrack

/-- **What a parser may do or not**, beyond what all parsers do. -/
inductive Feature where
  | back
  | position
  | raise
  | observe
deriving DecidableEq

/-- **What goes on after a failure alike, wherever the failure is.** -/
def IgnoresPosition {γ : Type _} (handler : ParseError → γ) : Prop :=
  ∀ (e : ParseError) (position : Nat), handler (e.relocate position) = handler e

namespace Parser

variable {N : Type → Type} {τ α β : Type} {allowed : Feature → Prop}

/-- **A parser keeps to the allowed features**; what its rules do is the grammar's concern. -/
def Within (allowed : Feature → Prop) : {α : Type} → Parser N τ α → Prop
  | _, pure _ => True
  | _, bind p f => Within allowed p ∧ ∀ a, Within allowed (f a)
  | _, call _ => True
  | _, atEnd => True
  | _, position => allowed .position
  | _, peek => True
  | _, next => True
  | _, back _ => allowed .back
  | _, error _ => True
  | _, raise f => f.isRecoverable = true → allowed .raise
  | _, recover p handler => Within allowed p ∧ (∀ e, Within allowed (handler e)) ∧
      (allowed .position ∨ IgnoresPosition handler)
  | _, label _ p => Within allowed p
  | _, observe p => allowed .observe ∧ Within allowed p
  | _, attempt p => Within allowed p
  | _, optional p => Within allowed p
  | _, lookAhead p => Within allowed p
  | _, many p => Within allowed p
  | _, manyOne p => Within allowed p
  | _, choice ps => ∀ i, Within allowed (ps i)
  | _, nested ps => ∀ i, Within allowed (ps i)
  | _, scan _ _ _ => True

/-- A class that allows everything holds every parser. -/
theorem within_of_all (h : ∀ f, allowed f) (p : Parser N τ α) : p.Within allowed := by
  induction p with
  | bind p f ihp ihf => exact ⟨ihp, ihf⟩
  | observe p ih => exact ⟨h _, ih⟩
  | position => exact h _
  | back n => exact h _
  | raise f => exact fun _ => h _
  | recover p handler ihp ihhandler => exact ⟨ihp, ihhandler, .inl (h _)⟩
  | label message p ih => exact ih
  | attempt p ih => exact ih
  | optional p ih => exact ih
  | lookAhead p ih => exact ih
  | many p ih => exact ih
  | manyOne p ih => exact ih
  | choice ps ih => exact ih
  | nested ps ih => exact ih
  | _ => trivial

/-! ## The library is in every class -/

theorem within_firstOf {ps : List (Parser N τ α)} (h : ∀ p ∈ ps, p.Within allowed) :
    (firstOf ps).Within allowed := fun i => h _ (List.get_mem ps i)

theorem within_alt {p : Parser N τ α} {ps : List (Parser N τ α)}
    (h : ∀ q ∈ p :: ps, q.Within allowed) : (alt p ps).Within allowed :=
  fun i => h _ (List.get_mem (p :: ps) i)

theorem within_sequence : ∀ {ps : List (Parser N τ α)}, (∀ p ∈ ps, p.Within allowed) →
    (sequence ps).Within allowed
  | [], _ => trivial
  | p :: _, h => ⟨h p List.mem_cons_self, fun _ =>
      ⟨within_sequence fun q hq => h q (List.mem_cons_of_mem _ hq), fun _ => trivial⟩⟩

theorem within_sepBy {item : Parser N τ α} {separator : Parser N τ β}
    (hitem : item.Within allowed) (hseparator : separator.Within allowed) :
    (sepBy item separator).Within allowed := by
  refine ⟨hitem, fun found => ?_⟩
  cases found with
  | none => trivial
  | some first => exact ⟨⟨hseparator, fun _ => hitem⟩, fun _ => trivial⟩

theorem within_test (accepts : τ → Bool) (message : String) :
    (test accepts message : Parser N τ τ).Within allowed := by
  refine ⟨trivial, fun seen => ?_⟩
  dsimp only
  split <;> trivial

theorem within_expect (accepts : τ → Bool) (message : String) :
    (expect accepts message : Parser N τ Unit).Within allowed := by
  refine ⟨⟨⟨trivial, fun _ => trivial⟩, fun _ => trivial, .inr fun _ _ => rfl⟩, fun accepted => ?_⟩
  cases accepted with
  | true => exact ⟨trivial, fun _ => trivial⟩
  | false => trivial

theorem within_endOfInput : (endOfInput : Parser N τ Unit).Within allowed := by
  refine ⟨trivial, fun ended => ?_⟩
  dsimp only
  split <;> trivial

theorem within_expectAll (message : String) : ∀ bytes : List UInt8,
    (expectAll message bytes : Parser N UInt8 Unit).Within allowed
  | [] => trivial
  | _ :: bytes => ⟨within_expect _ _, fun _ => within_expectAll message bytes⟩

theorem within_literal (text : String) : (literal text : Parser N UInt8 String).Within allowed :=
  ⟨within_expectAll _ _, fun _ => trivial⟩

theorem within_word : (word : Parser N UInt8 String).Within allowed := by
  refine ⟨⟨trivial, fun _ => trivial⟩, fun text => ?_⟩
  dsimp only
  split <;> trivial

theorem within_whitespace : (whitespace : Parser N UInt8 Unit).Within allowed := trivial

theorem within_boolean : (boolean : Parser N UInt8 Bool).Within allowed := by
  refine within_alt (List.forall_mem_cons.2 ⟨?_, List.forall_mem_singleton.2 ?_⟩)
  · exact ⟨within_literal _, fun _ => trivial⟩
  · exact ⟨within_literal _, fun _ => trivial⟩

theorem within_digit : (digit : Parser N UInt8 Nat).Within allowed :=
  ⟨within_test _ _, fun _ => trivial⟩

theorem within_sign : (sign : Parser N UInt8 Bool).Within allowed :=
  ⟨within_test _ _, fun _ => trivial⟩

theorem within_integer : (integer : Parser N UInt8 Int).Within allowed := by
  refine ⟨within_sign, fun negative => ⟨within_digit, fun digits => ?_⟩⟩
  dsimp only
  split <;> trivial

theorem within_number : (number : Parser N UInt8 Binary64).Within allowed := by
  refine ⟨within_sign, fun negative => ⟨within_test _ _, fun whole => ⟨?_, fun rest => ?_⟩⟩⟩
  · exact ⟨within_test _ _, fun _ => within_test _ _⟩
  · dsimp only
    split <;> trivial

end Parser

/-- A grammar whose rules all keep to the allowed features. -/
def Grammar.Within {N : Type → Type} {τ : Type} (allowed : Feature → Prop) (G : Grammar N τ) :
    Prop :=
  ∀ {α : Type} (r : N α), (G.body r).Within allowed

theorem Grammar.within_of_all {N : Type → Type} {τ : Type} {allowed : Feature → Prop}
    (h : ∀ f, allowed f) (G : Grammar N τ) : G.Within allowed :=
  fun r => Parser.within_of_all h (G.body r)

end Backtrack
