import Mathlib.Data.List.OfFn
import Backtrack.Cursor.Faulty
import Backtrack.Proofs.Action.Sound
import Backtrack.Proofs.Parser.Simulation

/-!
# Proofs/Parser/Trace — what a parser does to its cursor, and that a fatal failure ends it

    run    G n p s   =   outcome
    trace  G n p s   =   log, outcome         the same outcome, and every step on the way

A parser means a traced action just as it means an action, rule by rule and constructor by
constructor, and forgetting the log gives the run back (`Grammar.erase_trace`).  So a run is a
sequence of calls and nothing more (`Grammar.performAll_calls_trace`).

**A fatal failure ends the run.**  Whether the cursor answers with it, the parser raises it, or it
stands for a return that was refused: nothing is called after it arose, and the run yields it as it
is.  Nothing is asked of the cursor.
-/

namespace Backtrack

variable {N : Type → Type} {σ τ α : Type} [Cursor σ τ]

/-! ## The traced action a parser describes -/

/-- **The traced action a parser describes**, given what its rules do and a budget for
repetitions. -/
def Parser.trace (rule : ∀ β : Type, N β → Traced σ τ β) (n : Nat) :
    {α : Type} → Parser N τ α → Traced σ τ α
  | _, pure a => .quiet (.pure a)
  | _, bind p f => (trace rule n p).bind fun a => trace rule n (f a)
  | _, call r => rule _ r
  | _, atEnd => .quiet (.ask Cursor.atEnd)
  | _, position => .quiet (.ask Cursor.pos)
  | _, peek => .peek
  | _, next => .next
  | _, back k => .back k
  | _, error message => .quiet (.error message)
  | _, raise f => .raise f
  | _, recover p handler => (trace rule n p).recover fun e => trace rule n (handler e)
  | _, label message p => (trace rule n p).label message
  | _, observe p => (trace rule n p).observe
  | _, attempt p => (trace rule n p).attempt
  | _, optional p => (trace rule n p).optional
  | _, lookAhead p => (trace rule n p).lookAhead
  | _, many p => (trace rule n p).many n
  | _, manyOne p => (trace rule n p).manyOne n
  | _, choice ps => .choice (List.ofFn fun i => trace rule n (ps i))
  | _, nested ps => .choice (List.ofFn fun i => trace rule n (ps i))
  | _, scan accepts step init => .scan accepts step init n

/-- What a rule does, with a log, when rules may be nested at most `n` deep. -/
def Grammar.unfoldTraced (G : Grammar N τ) : Nat → ∀ α : Type, N α → Traced σ τ α
  | 0, _, _ => .quiet .spent
  | n + 1, _, r => (G.body r).trace (G.unfoldTraced n) n

/-- **Runs a parser with a budget, and keeps a log.** -/
def Grammar.trace (G : Grammar N τ) (n : Nat) (p : Parser N τ α) : Traced σ τ α :=
  p.trace (G.unfoldTraced n) n

/-! ## Forgetting the log -/

/-- **Without its log, a traced parser is the parser.** -/
theorem Parser.erase_trace (rule : ∀ β : Type, N β → Traced σ τ β) (n : Nat) (p : Parser N τ α) :
    (p.trace rule n).erase = p.denote (fun β r => (rule β r).erase) n := by
  induction p with
  | bind p f ihp ihf =>
    rw [trace, denote, Traced.erase_bind, ihp]
    exact congrArg _ (funext ihf)
  | recover p handler ihp ihhandler =>
    rw [trace, denote, Traced.erase_recover, ihp]
    exact congrArg _ (funext ihhandler)
  | label message p ih => rw [trace, denote, Traced.erase_label, ih]
  | observe p ih => rw [trace, denote, Traced.erase_observe, ih]
  | attempt p ih => rw [trace, denote, Traced.erase_attempt, ih]
  | optional p ih => rw [trace, denote, Traced.erase_optional, ih]
  | lookAhead p ih => rw [trace, denote, Traced.erase_lookAhead, ih]
  | many p ih => rw [trace, denote, Traced.erase_many, ih]
  | manyOne p ih => rw [trace, denote, Traced.erase_manyOne, ih]
  | choice ps ih =>
    rw [trace, denote, Traced.erase_choice, List.map_ofFn, Action.firstOf_eq_alt]
    exact congrArg (fun as => Action.alt (List.ofFn as)) (funext ih)
  | nested ps ih =>
    rw [trace, denote, Traced.erase_choice, List.map_ofFn]
    exact congrArg (fun as => Action.alt (List.ofFn as)) (funext ih)
  | scan accepts step init => exact Traced.erase_scan accepts step init n
  | _ => rfl

namespace Grammar

variable {G : Grammar N τ} {p : Parser N τ α} {s : σ}

theorem erase_unfoldTraced (G : Grammar N τ) (n : Nat) :
    (fun β r => (G.unfoldTraced n β r : Traced σ τ β).erase) = G.unfold n := by
  induction n with
  | zero => rfl
  | succ n ih =>
    funext β r
    rw [unfoldTraced, unfold, Parser.erase_trace, ih]

/-- **…and a traced run is the run.** -/
theorem erase_trace (G : Grammar N τ) (n : Nat) (p : Parser N τ α) :
    (G.trace n p : Traced σ τ α).erase = G.run n p := by
  rw [trace, run, Parser.erase_trace, erase_unfoldTraced]

theorem outcome_trace (G : Grammar N τ) (n : Nat) (p : Parser N τ α) (s : σ) :
    (G.trace n p s).outcome = G.run n p s := congrFun (G.erase_trace n p) s

end Grammar

/-! ## The log can be relied on -/

section Faithful

variable {loyal : Prop} {allowed : Feature → Prop}

/-- **Every parser has a log that can be relied on**, if its rules do.  A class that allows to turn
failures into values cannot be loyal. -/
theorem Parser.faithful_trace (hobserve : allowed .observe → ¬ loyal)
    {rule : ∀ β : Type, N β → Traced σ τ β} (hrule : ∀ β (r : N β), (rule β r).Faithful loyal)
    (n : Nat) {p : Parser N τ α} (hp : p.Within allowed) : (p.trace rule n).Faithful loyal := by
  induction p with
  | pure a => exact Traced.faithful_quiet (Traced.silent_pure a)
  | bind p f ihp ihf => exact (ihp hp.1).bind fun a => ihf a (hp.2 a)
  | call r => exact hrule _ r
  | atEnd => exact Traced.faithful_quiet (Traced.silent_ask _)
  | position => exact Traced.faithful_quiet (Traced.silent_ask _)
  | peek => exact Traced.faithful_peek
  | next => exact Traced.faithful_next
  | back k => exact Traced.faithful_back k
  | error message => exact Traced.faithful_quiet (Traced.silent_error message)
  | raise f => exact Traced.faithful_raise f
  | recover p handler ihp ihhandler =>
    exact (ihp hp.1).recover fun e => ihhandler e (hp.2.1 e)
  | label message p ih => exact (ih hp).label message
  | observe p ih => exact (ih hp.2).observe (hobserve hp.1)
  | attempt p ih => exact (ih hp).attempt
  | optional p ih => exact (ih hp).optional
  | lookAhead p ih => exact (ih hp).lookAhead
  | many p ih => exact (ih hp).many n
  | manyOne p ih => exact (ih hp).manyOne n
  | choice ps ih => exact Traced.faithful_choice (List.forall_mem_ofFn_iff.2 fun i => ih i (hp i))
  | nested ps ih => exact Traced.faithful_choice (List.forall_mem_ofFn_iff.2 fun i => ih i (hp i))
  | scan accepts step init => exact Traced.faithful_scan accepts step init n

theorem Grammar.faithful_unfoldTraced (hobserve : allowed .observe → ¬ loyal) {G : Grammar N τ}
    (hG : G.Within allowed) (n : Nat) :
    ∀ β (r : N β), (G.unfoldTraced n β r : Traced σ τ β).Faithful loyal := by
  induction n with
  | zero => exact fun _ _ => Traced.faithful_quiet Traced.silent_spent
  | succ n ih => exact fun _ r => Parser.faithful_trace hobserve ih n (hG r)

theorem Grammar.faithful_trace (hobserve : allowed .observe → ¬ loyal) {G : Grammar N τ}
    (hG : G.Within allowed) (n : Nat) {p : Parser N τ α} (hp : p.Within allowed) :
    (G.trace n p : Traced σ τ α).Faithful loyal :=
  Parser.faithful_trace hobserve (G.faithful_unfoldTraced hobserve hG n) n hp

end Faithful

/-- Whatever the parser, its log recounts the run. -/
theorem Grammar.sound_trace (G : Grammar N τ) (n : Nat) (p : Parser N τ α) (s : σ) :
    (G.trace n p s).Sound False s := by
  have hG : G.Within fun _ => True := G.within_of_all fun _ => trivial
  have hp : p.Within fun _ => True := p.within_of_all fun _ => trivial
  exact G.faithful_trace (fun _ => id) hG n hp s

/-- **A run is a sequence of calls**, those of its log. -/
theorem Grammar.performAll_calls_trace (G : Grammar N τ) {n : Nat} {p : Parser N τ α} {s s' : σ}
    {x : Except Failure α} (h : G.run n p s = some (x, s')) :
    Cursor.performAll (G.trace n p s).calls s = s' := by
  obtain ⟨s₁, hrecounts, hs₁⟩ := (G.sound_trace n p s).recounts
  obtain rfl := hs₁ x s' ((G.outcome_trace n p s).trans h)
  exact hrecounts.performAll_eq

theorem Grammar.Yields.exists_performAll {G : Grammar N τ} {p : Parser N τ α} {s s' : σ}
    {x : Except Failure α} (h : G.Yields p s x s') : ∃ calls, s' = Cursor.performAll calls s := by
  obtain ⟨n, hn⟩ := h
  exact ⟨_, (G.performAll_calls_trace hn).symm⟩

/-! ## A fatal failure ends the run -/

/-- The class of parsers that leave fatal failures alone. -/
def neverObserving (f : Feature) : Prop := f ≠ .observe

/-- **A fatal failure ends the run, as it is.**  On any cursor, with any budget, and for a parser
that turns no failure into a value: the log goes with the run and recounts it; if a fatal failure
arises with one of its events, no event comes after, and the run yields just that failure; and a run
yields no fatal failure but the one that arose with its last event. -/
theorem run_eq_of_fatal_event {G : Grammar N τ} (hG : G.Within neverObserving) {p : Parser N τ α}
    (hp : p.Within neverObserving) (n : Nat) (s : σ) :
    (G.trace n p s).outcome = G.run n p s ∧
      (∃ s', Recounts s (G.trace n p s).log s' ∧ ∀ x s'', G.run n p s = some (x, s'') → s'' = s') ∧
      (∀ before ev after e, (G.trace n p s).log = before ++ ev :: after → ev.fatal? = some e →
        after = [] ∧ ∃ s', G.run n p s = some (.error (.stream e), s')) ∧
      ∀ e s', G.run n p s = some (.error (.stream e), s') →
        ∃ before ev, (G.trace n p s).log = before ++ [ev] ∧ ev.fatal? = some e := by
  have hobserve : neverObserving .observe → ¬ True := fun h => absurd rfl h
  have hsound := G.faithful_trace hobserve hG n hp s
  have hends := hsound.ends trivial
  rw [← G.outcome_trace n p s]
  refine ⟨rfl, hsound.recounts, ?_, ?_⟩
  · intro before ev after e hlog hev
    exact hends.eq_nil_of_fatal hlog hev
  · intro e s' hout
    exact hends.exists_concat hout

/-- Takes a symbol, and fails behind it. -/
def takesOne : Parser (fun _ => Empty) τ α := .bind .next fun _ => .error "gave up"

/-- Attempts to take a symbol, in vain. -/
def givesUp : Parser (fun _ => Empty) Nat (Option Unit) := .optional takesOne

/-- On a cursor that never steps back, the attempt ends in the refusal, and nothing is called
after it. -/
theorem givesUp_ends_in_refusal :
    let G : Grammar (fun _ => Empty) Nat := ⟨fun r => nomatch r⟩
    let stuck : FaultyCursor Nat := ⟨.ofList [97, 98], false, [], none, some 0⟩
    let cause : ParseError := ⟨"injected step back fault", 1⟩
    (G.trace 1 givesUp stuck).calls = [.next, .back 1] ∧
      ∃ s, G.run 1 givesUp stuck = some (.error (.stream (.restore 0 cause)), s) := by
  intro G stuck cause
  have hG : G.Within neverObserving := fun r => nomatch r
  have hp : givesUp.Within neverObserving := ⟨trivial, fun _ => trivial⟩
  obtain ⟨-, -, hfatal, -⟩ := run_eq_of_fatal_event hG hp 1 stuck
  obtain ⟨-, s, hrun⟩ := hfatal
    [.called .next (.ok (.symbol 97)), .called (.back 1) (.error (.parse cause))]
    (.refused 0 cause) [] (.restore 0 cause) rfl rfl
  exact ⟨rfl, s, hrun⟩

end Backtrack
