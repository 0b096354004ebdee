import Backtrack.Proofs.Backend.Choice
import Backtrack.Proofs.Cursor.Ahead

/-!
# Proofs/Backend/Scan — the longest run of accepted symbols

    ahead   =   a a a a b …          accepts a, not b
    scan    ──▸ [a, a, a, a]         in front of b
            ──▸ fatal                in front of one of the a's: it could not be taken

A scan looks at the next symbol and takes it if it is accepted, so it goes through the longest run
of accepted symbols and stops behind it, unless the cursor breaks off inside.  It never steps back,
and so nothing a reader has forgotten is missed.

**A scan is the repetition of a test.**  The scan asks whether the input has ended; the test just
looks, and fails there.  Its failure is undone by a step back over nothing, which leaves every
cursor as it is.
-/

namespace Backtrack

variable {N : Type → Type} {σ τ α β : Type}

/-! ## Runs -/

/-- **The longest run of accepted symbols** at the beginning of `items`. -/
def LongestRun (accepts : τ → Bool) (items run : List τ) : Prop :=
  LongestBeginning (fun text => ∀ x ∈ text, accepts x = true) items run

/-- Accepted symbols, and none that is accepted behind them. -/
theorem longestRun_append {accepts : τ → Bool} {run after : List τ}
    (hrun : ∀ x ∈ run, accepts x = true) (hstops : ∀ x ∈ after.head?, accepts x = false) :
    LongestRun accepts (run ++ after) run := by
  refine longestBeginning_of_stuck (fun hbegins h x hx => h x (hbegins.subset hx)) hrun ?_
  intro x hx hmore
  have haccepted : accepts x = true := hmore x (by simp)
  rw [hstops x hx] at haccepted
  cases haccepted

theorem accepted_or_stops (accepts : τ → Bool) (items : List τ) :
    (∃ x more, items = x :: more ∧ accepts x = true) ∨ ∀ x ∈ items.head?, accepts x = false := by
  rcases items with _ | ⟨x, more⟩
  · exact .inr nofun
  · cases hx : accepts x with
    | true => exact .inl ⟨x, more, rfl, hx⟩
    | false => exact .inr fun y hy => Option.mem_some.1 hy ▸ hx

theorem exists_run (accepts : τ → Bool) (items : List τ) : ∃ run after, items = run ++ after ∧
    (∀ x ∈ run, accepts x = true) ∧ ∀ x ∈ after.head?, accepts x = false := by
  refine ⟨items.takeWhile accepts, items.dropWhile accepts, ?_, ?_, ?_⟩
  · exact List.takeWhile_append_dropWhile.symm
  · exact List.all_eq_true.1 List.all_takeWhile
  · intro x hx
    have hstop := List.head?_dropWhile_not accepts items
    rw [Option.mem_def.1 hx] at hstop
    simpa using hstop

/-! ## How a scan ends -/

/-- **A scan past the run**: it has the run, and no accepted symbol comes next. -/
structure ScansPast [Cursor σ τ] (G : Grammar N τ) (accepts : τ → Bool) (ahead : σ → List τ)
    (run : List τ) (s s' : σ) : Prop where
  yields : G.Yields (.takeWhile accepts) s (.ok run) s'
  further : Cursor.Further ahead run.length s s'
  stops : Cursor.atEnd s' = true ∨ ∃ x, Cursor.peek s' = (.ok x, s') ∧ accepts x = false

/-- **A parser that breaks off inside `text`**: what it has taken is a beginning of the text, and
not all of it. -/
structure BreaksInside [Cursor σ τ] (G : Grammar N τ) (p : Parser N τ α) (ahead : σ → List τ)
    (breaks : σ → StreamError → σ → Prop) (text : List τ) (s : σ) (e : StreamError) (s' : σ) :
    Prop where
  yields : G.Yields p s (.error (.stream e)) s'
  inside : ∃ k < text.length, Cursor.BrokenOff ahead breaks k s e s' ∧ (ahead s).take k <+: text

theorem not_breaksInside [Cursor σ τ] {G : Grammar N τ} {p : Parser N τ α} {ahead : σ → List τ}
    {text : List τ} {s s' : σ} {e : StreamError} :
    ¬ BreaksInside G p ahead Cursor.NeverBreaks text s e s' := by
  rintro ⟨-, k, -, hbroken, -⟩
  exact Cursor.not_brokenOff hbroken

/-- Broken off at a symbol of a text that is ahead. -/
theorem Cursor.BrokenOff.breaksInside [Cursor σ τ] {G : Grammar N τ} {p : Parser N τ α}
    {ahead : σ → List τ} {breaks : σ → StreamError → σ → Prop} {text : List τ} {s s' : σ}
    {e : StreamError} {k : Nat} (h : BrokenOff ahead breaks k s e s')
    (htext : text <+: ahead s) (hk : k < text.length)
    (hyields : G.Yields p s (.error (.stream e)) s') :
    BreaksInside G p ahead breaks text s e s' := by
  refine ⟨hyields, k, hk, h, ?_⟩
  obtain ⟨after, hahead⟩ := htext
  rw [← hahead, List.take_append_of_le_length (Nat.le_of_lt hk)]
  exact List.take_prefix k text

namespace Cursor.Feeds

variable [Cursor σ τ] {valid : σ → Prop} {ahead : σ → List τ}
  {breaks : σ → StreamError → σ → Prop} (feeds : Feeds valid ahead breaks) {s : σ} {x : τ}
  {more : List τ} {accepts : τ → Bool}
include feeds

/-- Where no accepted symbol comes next, a look shows another one or the end. -/
theorem look_stopped (hs : valid s) (hstops : ∀ x ∈ (ahead s).head?, accepts x = false) :
    (atEnd s = true ∧ peek s = (.error (peekPastEnd (pos s)), s)) ∨
      ∃ x, atEnd s = false ∧ peek s = (.ok x, s) ∧ accepts x = false := by
  rw [feeds.atEnd_eq hs]
  rcases hahead : ahead s with _ | ⟨x, more⟩
  · exact .inl ⟨rfl, feeds.peek_nil hs hahead⟩
  · rw [hahead] at hstops
    exact .inr ⟨x, rfl, feeds.peek_cons hs hahead, hstops x rfl⟩

section Scan

variable (step : τ → β → β) (init : β)

/-- A scan stops where no accepted symbol comes next. -/
theorem scan_stops (hs : valid s) (hstops : ∀ x ∈ (ahead s).head?, accepts x = false) (n : Nat) :
    Action.scan accepts step init (n + 1) s = some (.ok init, s) := by
  rw [Action.scan, Action.bind, Action.ask]
  obtain ⟨hend, -⟩ | ⟨x, hend, hpeek, hx⟩ := feeds.look_stopped hs hstops
  · simp only [hend, if_true, Action.pure]
  · simp only [hend, Bool.false_eq_true, if_false, Action.bind, Action.ofOp, hpeek, hx, Action.pure]

/-- …and takes an accepted one. -/
theorem scan_goes_on (hs : valid s) (hahead : ahead s = x :: more) (hx : accepts x = true)
    (n : Nat) : Action.scan accepts step init (n + 1) s
      = ((Action.ofOp next).bind fun taken =>
          (Action.scan accepts step init n).map (step taken)) s := by
  have hend := feeds.atEnd_eq hs
  rw [hahead, List.isEmpty_cons] at hend
  rw [Action.scan, Action.bind, Action.ask]
  simp only [hend, Bool.false_eq_true, if_false]
  rw [Action.bind, Action.ofOp, feeds.peek_cons hs hahead]
  simp only [hx, if_true]

/-- **A scan goes through the run**: past it, with all its symbols folded up, or it breaks off at
one of them. -/
theorem scan_goes_through {run after : List τ} (hrun : ∀ x ∈ run, accepts x = true)
    (hstops : ∀ x ∈ after.head?, accepts x = false) (hs : valid s)
    (hahead : ahead s = run ++ after) :
    (∃ s', Further ahead run.length s s' ∧ valid s' ∧
        Action.scan accepts step init (run.length + 1) s = some (.ok (run.foldr step init), s')) ∨
      ∃ k e s', k < run.length ∧ BrokenOff ahead breaks k s e s' ∧
        Action.scan accepts step init (run.length + 1) s = some (.error (.stream e), s') := by
  have hthrough := feeds.goes_through (fun text => Action.scan accepts step init (text.length + 1))
    step (fun hsuffix hs hahead => feeds.scan_goes_on step init hs hahead
      (hrun _ (hsuffix.subset List.mem_cons_self)) _) hs hahead
  refine hthrough.imp_left ?_
  rintro ⟨s', hfurther, hs', hscan⟩
  refine ⟨s', hfurther, hs', hscan.trans ?_⟩
  have hafter := hfurther.ahead_eq_after hahead
  rw [Action.map, Action.bind, feeds.scan_stops step init hs' (hafter ▸ hstops)]
  rfl

end Scan

/-- **A scan takes the longest run of accepted symbols**, or breaks off inside it. -/
theorem takes_longest_run (G : Grammar N τ) (accepts : τ → Bool) (hs : valid s) :
    ∃ run, LongestRun accepts (ahead s) run ∧
      ((∃ s', ScansPast G accepts ahead run s s') ∨
        ∃ e s', BreaksInside G (.takeWhile accepts) ahead breaks run s e s') := by
  obtain ⟨run, after, hahead, hrun, hstops⟩ := exists_run accepts (ahead s)
  refine ⟨run, hahead ▸ longestRun_append hrun hstops, ?_⟩
  obtain ⟨s', hfurther, hs', hscan⟩ | ⟨k, e, s', hlt, hbroken, hscan⟩ :=
    feeds.scan_goes_through List.cons [] hrun hstops hs hahead
  · rw [List.foldr_cons_nil] at hscan
    have hafter := hfurther.ahead_eq_after hahead
    have hlook := feeds.look_stopped hs' (hafter ▸ hstops)
    refine .inl ⟨s', ⟨run.length + 1, hscan⟩, hfurther, ?_⟩
    exact hlook.imp And.left fun ⟨x, _, hx⟩ => ⟨x, hx⟩
  · exact .inr ⟨e, s', hbroken.breaksInside ⟨after, hahead.symm⟩ hlt ⟨run.length + 1, hscan⟩⟩

end Cursor.Feeds

/-- Where a cursor never breaks off, no scan fails. -/
theorem Cursor.Feeds.scans_past [Cursor σ τ] {valid : σ → Prop} {ahead : σ → List τ}
    (feeds : Feeds valid ahead NeverBreaks) (G : Grammar N τ) (accepts : τ → Bool) {s : σ}
    (hs : valid s) : ∃ run s', LongestRun accepts (ahead s) run ∧
      ScansPast G accepts ahead run s s' := by
  obtain ⟨run, hlongest, ⟨s', hpast⟩ | ⟨e, s', hbreaks⟩⟩ := feeds.takes_longest_run G accepts hs
  · exact ⟨run, s', hlongest, hpast⟩
  · exact absurd hbreaks not_breaksInside

/-! ## Only forward -/

/-- **What is made of the folded symbols may be folded up with them.** -/
theorem Action.map_scan [Cursor σ τ] (accepts : τ → Bool) {step : τ → α → α} {step' : τ → β → β}
    (g : α → β) (hstep : ∀ x a, g (step x a) = step' x (g a)) (init : α) : ∀ n : Nat,
    (scan accepts step init n : Action σ α).map g = scan accepts step' (g init) n
  | 0 => rfl
  | n + 1 => by
    rw [scan, scan, map, bind_assoc]
    refine congrArg _ (funext fun ended => ?_)
    cases ended with
    | true => rfl
    | false =>
      refine (bind_assoc _ _ _).trans (congrArg _ (funext fun seen => ?_))
      cases accepts seen with
      | true =>
        refine (bind_assoc _ _ _).trans (congrArg _ (funext fun taken => ?_))
        rw [← map_scan accepts g hstep init n, map_map]
        exact (map_map _ _ _).trans (congrArg (map · _) (funext (hstep taken)))
      | false => rfl

namespace Traced

/-- **A step back is none of the calls.** -/
def Forward (t : Traced σ τ α) : Prop := ∀ s k, Call.back k ∉ (t s).calls

theorem forward_quiet (a : Action σ α) : (quiet a : Traced σ τ α).Forward := fun _ _ => nofun

theorem Forward.bind {t : Traced σ τ α} {f : α → Traced σ τ β} (ht : t.Forward)
    (hf : ∀ a, (f a).Forward) : (t.bind f).Forward := by
  intro s k
  have hhere := ht s k
  rw [Trace.calls] at hhere ⊢
  rw [Traced.bind]
  rcases (t s).outcome with _ | ⟨_ | a, s'⟩
  · exact hhere
  · exact hhere
  · rw [List.filterMap_append, List.mem_append]
    exact not_or.2 ⟨hhere, hf a s' k⟩

theorem Forward.map {t : Traced σ τ α} (ht : t.Forward) (g : α → β) : (t.map g).Forward :=
  ht.bind fun _ => forward_quiet _

variable [Cursor σ τ]

theorem forward_peek : (peek : Traced σ τ τ).Forward := by
  intro s k hk
  cases List.mem_singleton.1 hk

theorem forward_next : (next : Traced σ τ τ).Forward := by
  intro s k hk
  cases List.mem_singleton.1 hk

/-- **No scan steps back.** -/
theorem forward_scan (accepts : τ → Bool) (step : τ → β → β) (init : β) : ∀ n : Nat,
    (scan accepts step init n : Traced σ τ β).Forward
  | 0 => forward_quiet _
  | n + 1 => by
    refine (forward_quiet _).bind fun ended => ?_
    cases ended with
    | true => exact forward_quiet _
    | false =>
      refine forward_peek.bind fun seen => ?_
      cases accepts seen with
      | true => exact forward_next.bind fun taken => (forward_scan accepts step init n).map _
      | false => exact forward_quiet _

end Traced

/-- **Scanners compute the longest run.**  On an array cursor and on a zipper, a scan has the
longest run of accepted symbols at the beginning of what is left; on a reader, in any state that
calls lead to, it has that run or fails inside it, behind accepted symbols, with the failure of the
refill.  Taking until is taking while not; dropping leaves the cursor as taking does, and fails as
it does, on any cursor whatsoever; and there no scan steps back. -/
theorem scan_takes_longest_run :
    (∀ {N : Type → Type} {τ : Type} (G : Grammar N τ) (accepts : τ → Bool),
      (∀ m : ArrayCursor τ, ∃ run m', LongestRun accepts m.remaining run ∧
        ScansPast G accepts ArrayCursor.remaining run m m') ∧
      ∀ l : ListCursor τ, ∃ run l', LongestRun accepts l.remaining run ∧
        ScansPast G accepts ListCursor.remaining run l l') ∧
    (∀ {N : Type → Type} (G : Grammar N UInt8) (accepts : UInt8 → Bool) {source : Source}
      {config : ReaderConfig} {r : Reader}, Reader.Reachable source config r →
      ∃ run, LongestRun accepts r.remaining run ∧
        ((∃ r', ScansPast G accepts Reader.remaining run r r') ∨ ∃ e r',
          BreaksInside G (.takeWhile accepts) Reader.remaining Reader.RefillFails run r e r')) ∧
    ∀ {N : Type → Type} {σ τ : Type} [Cursor σ τ] (G : Grammar N τ) (n : Nat)
      (accepts stops : τ → Bool) (s : σ),
      G.run n (.takeUntil stops) s = G.run n (.takeWhile fun x => !stops x) s ∧
      G.run n (.dropWhile accepts) s = (G.run n (.takeWhile accepts)).map (fun _ => ()) s ∧
      G.run n (.dropUntil stops) s = (G.run n (.takeUntil stops)).map (fun _ => ()) s ∧
      ∀ k, Call.back k ∉ (G.trace n (.takeWhile accepts) s).calls ∧
        Call.back k ∉ (G.trace n (.dropWhile accepts) s).calls ∧
        Call.back k ∉ (G.trace n (.takeUntil stops) s).calls ∧
        Call.back k ∉ (G.trace n (.dropUntil stops) s).calls := by
  refine ⟨fun G accepts => ⟨fun m => ?_, fun l => ?_⟩, ?_, ?_⟩
  · exact ArrayCursor.feeds.scans_past G accepts trivial
  · exact ListCursor.feeds.scans_past G accepts trivial
  · intro N G accepts source config r hr
    exact (Reader.feeds source config).takes_longest_run G accepts hr
  · intro N σ τ _ G n accepts stops s
    have hdrop : ∀ accepts : τ → Bool, (G.run n (.dropWhile accepts) : Action σ Unit)
        = (G.run n (.takeWhile accepts)).map fun _ => () := fun accepts =>
      (Action.map_scan accepts (fun _ => ()) (fun _ _ => rfl) [] n).symm
    refine ⟨rfl, congrFun (hdrop accepts) s, congrFun (hdrop _) s, fun k => ⟨?_, ?_, ?_, ?_⟩⟩
    · exact Traced.forward_scan accepts List.cons [] n s k
    · exact Traced.forward_scan accepts (fun _ u => u) () n s k
    · exact Traced.forward_scan (fun x => !stops x) List.cons [] n s k
    · exact Traced.forward_scan (fun x => !stops x) (fun _ u => u) () n s k

/-- The read behind the first byte fails, and the scan with it; the failure is over then, and a scan
from where it broke off has the whole run. -/
theorem stutteringReader_scans_again :
    let G : Grammar (fun _ => Empty) UInt8 := ⟨fun r => nomatch r⟩
    let accepts : UInt8 → Bool := (· != 99)
    let r := Reader.stutteringReader
    r.remaining = [97, 98, 99, 100] ∧
      ∃ run e r', LongestRun accepts r.remaining run ∧
        BreaksInside G (.takeWhile accepts) Reader.remaining Reader.RefillFails run r e r' ∧
        ∃ r'', G.Yields (.takeWhile accepts) r' (.ok [97, 98]) r'' ∧ r''.pos = 2 := by
  intro G accepts r
  have hr := Reader.Reachable.start Reader.ofSource_stutteringSource
  obtain ⟨run, hlongest, ⟨r', hpast⟩ | ⟨e, r', hbreaks⟩⟩ := scan_takes_longest_run.2.1 G accepts hr
  · cases (hpast.yields.unique ⟨1, rfl⟩).1
  · refine ⟨rfl, run, e, r', hlongest, hbreaks, ?_⟩
    obtain ⟨-, rfl⟩ := hbreaks.yields.unique ⟨1, rfl⟩
    exact ⟨_, ⟨3, rfl⟩, rfl⟩

/-! ## Repeated tests -/

/-- **Two parsers that do the same here**: with any budget they have the same result and leave the
same cursor, and they do come to a value or a fatal failure. -/
structure Grammar.Agree [Cursor σ τ] (G : Grammar N τ) (p q : Parser N τ α) (s : σ) : Prop where
  run_eq : ∀ n, G.run n p s = G.run n q s
  finishes : ∃ s', (∃ a, G.Yields p s (.ok a) s') ∨ ∃ e, G.Yields p s (.error (.stream e)) s'

namespace Cursor.Feeds

variable [Cursor σ τ] {valid : σ → Prop} {ahead : σ → List τ}
  {breaks : σ → StreamError → σ → Prop} (feeds : Feeds valid ahead breaks) {s : σ} {x : τ}
  {more : List τ} {accepts : τ → Bool} (G : Grammar N τ) (message : String)
include feeds

/-- A test fails where it is, about where it is, unless an accepted symbol comes next. -/
theorem test_refused (hs : valid s) (hstops : ∀ x ∈ (ahead s).head?, accepts x = false) (n : Nat) :
    ∃ e, e.position = pos s ∧
      G.run n (.test accepts message) s = some (.error (.parse e), s) := by
  rw [Parser.test, Grammar.run, Parser.denote, Action.bind, Parser.denote, Action.ofOp]
  obtain ⟨-, hpeek⟩ | ⟨x, -, hpeek, hx⟩ := feeds.look_stopped hs hstops
  · rw [hpeek]
    exact ⟨_, rfl, rfl⟩
  · simp only [hpeek, hx]
    exact ⟨_, rfl, rfl⟩

/-- …which it takes. -/
theorem test_taken (hs : valid s) (hahead : ahead s = x :: more) (hx : accepts x = true) (n : Nat) :
    G.run n (.test accepts message) s = some (next s) := by
  rw [Parser.test, Grammar.run, Parser.denote, Action.bind, Parser.denote, Action.ofOp,
    feeds.peek_cons hs hahead]
  simp only [hx, if_true]
  rfl

variable (stays : Stays (τ := τ) valid)
include stays

/-- An optional test that fails leaves the cursor as it is: the return is one to where it stands. -/
theorem optional_test_refused (hs : valid s) (hstops : ∀ x ∈ (ahead s).head?, accepts x = false)
    (n : Nat) : Action.optional (G.run n (.test accepts message)) s = some (.ok none, s) := by
  obtain ⟨e, hposition, htest⟩ := feeds.test_refused G message hs hstops n
  refine Action.optional_eq_none_iff.2 ⟨e, (Action.attempt_eq_self fun e' s' h => ?_).trans htest⟩
  cases htest.symm.trans h
  exact ⟨hposition, stays.rewind_pos hs⟩

/-- **A repeated test is a scan.** -/
theorem many_test (hs : valid s) (n k : Nat) :
    (G.run n (.test accepts message)).many k s = Action.scan accepts List.cons [] k s := by
  induction k generalizing s with
  | zero => rfl
  | succ k ih =>
    rw [Action.many, Action.bind]
    obtain ⟨x, more, hahead, hx⟩ | hstops := accepted_or_stops accepts (ahead s)
    · have htest := feeds.test_taken G message hs hahead hx n
      rw [feeds.scan_goes_on List.cons [] hs hahead hx, Action.bind, Action.ofOp]
      obtain ⟨s₁, hnext, hs₁, -, -⟩ | ⟨e, s', hnext, -⟩ := feeds.next_cons hs hahead
      · rw [hnext] at htest ⊢
        have htaken := Action.optional_eq_some_iff.2
          (.inr (.inr ⟨x, rfl, Action.attempt_of_ne htest (by rintro _ ⟨⟩)⟩))
        rw [htaken]
        exact Action.map_congr _ (ih hs₁)
      · rw [hnext] at htest ⊢
        have hbroken := Action.optional_eq_some_iff.2
          (.inr (.inl ⟨e, rfl, Action.attempt_of_ne htest (by rintro _ ⟨⟩)⟩))
        rw [hbroken]
    · rw [feeds.optional_test_refused G message stays hs hstops,
        feeds.scan_stops List.cons [] hs hstops]
      rfl

/-- **A repeated test and a scan agree**, failures included. -/
theorem agree_many_test (hs : valid s) :
    G.Agree (.many (.test accepts message)) (.takeWhile accepts) s := by
  have heq : ∀ n, G.run n (.many (.test accepts message)) s = G.run n (.takeWhile accepts) s :=
    fun n => feeds.many_test G message stays hs n n
  refine ⟨heq, ?_⟩
  obtain ⟨run, -, ⟨s', ⟨n, hn⟩, -, -⟩ | ⟨e, s', ⟨n, hn⟩, -⟩⟩ := feeds.takes_longest_run G accepts hs
  · exact ⟨s', .inl ⟨run, n, (heq n).trans hn⟩⟩
  · exact ⟨s', .inr ⟨e, n, (heq n).trans hn⟩⟩

end Cursor.Feeds

/-- **The three tests of one symbol, repeated, against the scans** that go with them. -/
structure RepeatsScan [Cursor σ τ] (G : Grammar N τ) (s : σ) : Prop where
  satisfy : ∀ accepts : τ → Bool, G.Agree (.many (.satisfy accepts)) (.takeWhile accepts) s
  oneOf : ∀ [BEq τ] (set : List τ), G.Agree (.many (.oneOf set)) (.takeWhile (set.contains ·)) s
  noneOf : ∀ [BEq τ] (set : List τ), G.Agree (.many (.noneOf set)) (.takeUntil (set.contains ·)) s

theorem Cursor.Feeds.repeatsScan [Cursor σ τ] {valid : σ → Prop} {ahead : σ → List τ}
    {breaks : σ → StreamError → σ → Prop} (feeds : Feeds valid ahead breaks)
    (stays : Stays (τ := τ) valid) (G : Grammar N τ) {s : σ} (hs : valid s) : RepeatsScan G s where
  satisfy _ := feeds.agree_many_test G _ stays hs
  oneOf _ := feeds.agree_many_test G _ stays hs
  noneOf _ := feeds.agree_many_test G _ stays hs

/-- **The scanner agrees with the combinator.**  Repeating the test of a symbol, whether by a
predicate or by a set, and scanning for such symbols have the same list or the same fatal failure,
and leave the same cursor: an array cursor, a zipper, or a reader in any state that calls lead to,
with its window, its flag and its count of reads. -/
theorem repeated_test_agrees_with_scan :
    (∀ {N : Type → Type} {τ : Type} (G : Grammar N τ),
      (∀ m : ArrayCursor τ, RepeatsScan G m) ∧ ∀ l : ListCursor τ, RepeatsScan G l) ∧
    ∀ {N : Type → Type} (G : Grammar N UInt8) {source : Source} {config : ReaderConfig}
      {r : Reader}, Reader.Reachable source config r → RepeatsScan G r := by
  refine ⟨fun G => ⟨fun m => ?_, fun l => ?_⟩, fun G source config r hr => ?_⟩
  · exact ArrayCursor.feeds.repeatsScan ArrayCursor.stays G trivial
  · exact ListCursor.feeds.repeatsScan ListCursor.stays G trivial
  · exact (Reader.feeds source config).repeatsScan (Reader.stays source config) G hr

/-- A failed read is told alike, after the same number of reads, and so is the end of a window that
has been trimmed. -/
theorem stutteringReader_agrees_with_scan :
    let G : Grammar (fun _ => Empty) UInt8 := ⟨fun r => nomatch r⟩
    let source := Reader.stutteringSource
    Reader.Reachable source ⟨2, some 1⟩ Reader.stutteringReader ∧
      G.run 1 (.many (.noneOf [99])) Reader.stutteringReader
        = G.run 1 (.takeUntil ([99].contains ·)) Reader.stutteringReader ∧
      G.run 1 (.takeUntil ([99].contains ·)) Reader.stutteringReader
        = some (.error (.stream (.read 1 ⟨⟨"Other"⟩, "broken"⟩)),
            { Reader.stutteringReader with source := ⟨[.upTo 2], [98, 99, 100], 3, 1⟩ }) ∧
      Reader.Reachable source ⟨2, some 1⟩ Reader.trimmedReader ∧
      G.run 2 (.many (.oneOf [100, 99])) Reader.trimmedReader
        = G.run 2 (.takeWhile ([100, 99].contains ·)) Reader.trimmedReader := by
  intro G source
  have hstart := Reader.Reachable.start Reader.ofSource_stutteringSource
  have htrimmed := Reader.reachable_trimmedReader
  refine ⟨hstart, ?_, rfl, htrimmed, ?_⟩
  · exact ((repeated_test_agrees_with_scan.2 G hstart).noneOf [99]).run_eq 1
  · exact ((repeated_test_agrees_with_scan.2 G htrimmed).oneOf [100, 99]).run_eq 2

end Backtrack
