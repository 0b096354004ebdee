import Backtrack.Proofs.Action.Trace

/-!
# Proofs/Action/Sound — what a log is worth

A log can be relied on in three ways (`Trace.Sound`):

* it recounts how the cursor came to where it is left,
* a fatal outcome arose with one of its events,
* **as long as no failure is turned into a value**, an event with a fatal failure is the last of all
  and the failure is the outcome.

All three hold of the operations, and both ways to go on hand them on: `bind` goes on after a value
and `recover` after a recoverable failure, so what comes before the rest of the log is calm.
-/

namespace Backtrack

variable {σ τ α β : Type}

/-! ## Fatal failures and the end of a log -/

/-- No fatal failure arises. -/
def Calm (log : List (Event τ)) : Prop := ∀ ev ∈ log, ev.fatal? = none

/-- **A fatal failure ends it**: none arises, or one arises with the last event and is the
outcome. -/
inductive Ends : List (Event τ) → Option (Except Failure α × σ) → Prop where
  | calm {log : List (Event τ)} {out : Option (Except Failure α × σ)} (hlog : Calm log)
      (hout : ∀ e s, out ≠ some (.error (.stream e), s)) : Ends log out
  | fatal {log : List (Event τ)} {ev : Event τ} {e : StreamError} (hlog : Calm log)
      (hev : ev.fatal? = some e) (s : σ) : Ends (log ++ [ev]) (some (.error (.stream e), s))

namespace Ends

variable {log log' : List (Event τ)} {out : Option (Except Failure α × σ)}

/-- What is calm may come first. -/
theorem prepend (hlog : Calm log) (h : Ends log' out) : Ends (log ++ log') out := by
  cases h with
  | calm hlog' hout => exact .calm (List.forall_mem_append.2 ⟨hlog, hlog'⟩) hout
  | fatal hlog' hev s =>
    rw [← List.append_assoc]
    exact .fatal (List.forall_mem_append.2 ⟨hlog, hlog'⟩) hev s

/-- What ends otherwise is calm. -/
theorem calm_of_ne (h : Ends log out) (hout : ∀ e s, out ≠ some (.error (.stream e), s)) :
    Calm log := by
  cases h with
  | calm hlog _ => exact hlog
  | fatal _ _ s => exact absurd rfl (hout _ s)

/-- **No event comes after a fatal failure**, and the failure is the outcome. -/
theorem eq_nil_of_fatal (h : Ends log out) {before after : List (Event τ)} {ev : Event τ}
    {e : StreamError} (hlog : log = before ++ ev :: after) (hev : ev.fatal? = some e) :
    after = [] ∧ ∃ s, out = some (.error (.stream e), s) := by
  cases h with
  | calm hcalm _ =>
    have hmem : ev ∈ log := hlog ▸ List.mem_append_right _ List.mem_cons_self
    exact nomatch (hcalm ev hmem).symm.trans hev
  | @fatal log last _ hcalm hlast s =>
    rcases List.eq_nil_or_concat after with rfl | ⟨between, last', rfl⟩
    · obtain ⟨-, heq⟩ := List.append_inj' hlog rfl
      obtain rfl := List.singleton_inj.1 heq
      obtain rfl := Option.some.inj (hlast.symm.trans hev)
      exact ⟨rfl, s, rfl⟩
    · -- then the event stands among those before the last one, and they are calm
      have hsplit : log ++ [last] = (before ++ ev :: between) ++ [last'] := by simpa using hlog
      have hmem : ev ∈ log := by
        rw [(List.append_inj' hsplit rfl).1]
        exact List.mem_append_right _ List.mem_cons_self
      exact nomatch (hcalm ev hmem).symm.trans hev

/-- A fatal outcome arises with the last event. -/
theorem exists_concat (h : Ends log out) {e : StreamError} {s : σ}
    (hout : out = some (.error (.stream e), s)) :
    ∃ before ev, log = before ++ [ev] ∧ ev.fatal? = some e := by
  cases h with
  | calm _ hne => exact absurd hout (hne e s)
  | @fatal before ev _ _ hev _ =>
    cases hout
    exact ⟨before, ev, rfl, hev⟩

end Ends

/-! ## Sound traces -/

/-- **A trace that can be relied on.**  `loyal` says that no failure is turned into a value. -/
structure Trace.Sound [Cursor σ τ] (loyal : Prop) (s : σ) (t : Trace σ τ α) : Prop where
  recounts : ∃ s', Recounts s t.log s' ∧ ∀ x s'', t.outcome = some (x, s'') → s'' = s'
  arose : ∀ e s', t.outcome = some (.error (.stream e), s') → ∃ ev ∈ t.log, ev.fatal? = some e
  ends : loyal → Ends t.log t.outcome

namespace Trace.Sound

variable [Cursor σ τ] {loyal : Prop} {s s₁ : σ} {t : Trace σ τ α} {u : Trace σ τ β}

/-- **One after the other**, unless the first ends fatally. -/
theorem append (ht : t.Sound loyal s) {x : Except Failure α} (hout : t.outcome = some (x, s₁))
    (hx : ∀ e, x ≠ .error (.stream e)) (hu : u.Sound loyal s₁) :
    (⟨t.log ++ u.log, u.outcome⟩ : Trace σ τ β).Sound loyal s where
  recounts := by
    obtain ⟨s', hrecounts, hs'⟩ := ht.recounts
    obtain ⟨s'', hrecounts', hs''⟩ := hu.recounts
    obtain rfl := hs' x s₁ hout
    exact ⟨s'', hrecounts.append hrecounts', hs''⟩
  arose e s' h := by
    obtain ⟨ev, hmem, hev⟩ := hu.arose e s' h
    exact ⟨ev, List.mem_append_right _ hmem, hev⟩
  ends hloyal := by
    refine (hu.ends hloyal).prepend ((ht.ends hloyal).calm_of_ne fun e s' h => ?_)
    rw [hout, Option.some.injEq, Prod.mk.injEq] at h
    exact hx e h.1

/-- **The same log with another outcome**, fatal if and only if it was. -/
theorem relabel (h : t.Sound loyal s) {out : Option (Except Failure β × σ)}
    (hstate : ∀ y s', out = some (y, s') → ∃ x, t.outcome = some (x, s'))
    (hfatal : ∀ e s', out = some (.error (.stream e), s') →
      t.outcome = some (.error (.stream e), s'))
    (hkeep : loyal → ∀ e s', t.outcome = some (.error (.stream e), s') →
      out = some (.error (.stream e), s')) :
    (⟨t.log, out⟩ : Trace σ τ β).Sound loyal s where
  recounts := by
    obtain ⟨s', hrecounts, hs'⟩ := h.recounts
    refine ⟨s', hrecounts, fun y s'' hy => ?_⟩
    obtain ⟨x, hx⟩ := hstate y s'' hy
    exact hs' x s'' hx
  arose e s' hout := h.arose e s' (hfatal e s' hout)
  ends hloyal := by
    have hends := h.ends hloyal
    have hkeep := hkeep hloyal
    obtain ⟨log, outcome⟩ := t
    cases hends with
    | calm hlog hne => exact .calm hlog fun e s' hout => hne e s' (hfatal e s' hout)
    | fatal hlog hev s' =>
      rw [hkeep _ _ rfl]
      exact .fatal hlog hev s'

/-- **One event**, fatal if and only if the result is. -/
theorem single {ev : Event τ} {x : Except Failure α} (hrecounts : Recounts s [ev] s₁)
    (hfatal : ∀ e, x = .error (.stream e) ↔ ev.fatal? = some e) :
    (⟨[ev], some (x, s₁)⟩ : Trace σ τ α).Sound loyal s where
  recounts := ⟨s₁, hrecounts, by rintro _ _ ⟨⟩; rfl⟩
  arose := by
    rintro e _ ⟨⟩
    exact ⟨ev, List.mem_singleton_self ev, (hfatal e).1 rfl⟩
  ends _ := by
    cases hev : ev.fatal? with
    | none =>
      refine .calm (List.forall_mem_singleton.2 hev) ?_
      rintro e _ ⟨⟩
      exact nomatch hev.symm.trans ((hfatal e).1 rfl)
    | some e =>
      rw [(hfatal e).2 hev]
      have hnil : Calm ([] : List (Event τ)) := nofun
      exact .fatal hnil hev s₁

end Trace.Sound

/-- **A traced action whose traces can be relied on.** -/
def Traced.Faithful [Cursor σ τ] (loyal : Prop) (t : Traced σ τ α) : Prop :=
  ∀ s, (t s).Sound loyal s

namespace Traced

variable [Cursor σ τ] {loyal : Prop} {t : Traced σ τ α} {s : σ}

/-! ## The two ways to go on -/

theorem sound_bind {f : α → Traced σ τ β} (ht : (t s).Sound loyal s)
    (hf : ∀ a, (f a).Faithful loyal) : (t.bind f s).Sound loyal s := by
  rw [bind]
  rcases hout : (t s).outcome with _ | ⟨e | a, s'⟩
  · refine ht.relabel ?_ ?_ ?_ <;> simp [hout]
  · refine ht.relabel ?_ ?_ ?_ <;> simp [hout]
  · exact ht.append hout (by simp) (hf a s')

theorem sound_recover {handler : ParseError → Traced σ τ α} (ht : (t s).Sound loyal s)
    (hhandler : ∀ e s', (t s).outcome = some (.error (.parse e), s') →
      (handler e s').Sound loyal s') : (t.recover handler s).Sound loyal s := by
  rw [recover]
  rcases hout : (t s).outcome with _ | ⟨(e | e) | a, s'⟩
  · exact ht
  · exact ht.append hout (by simp) (hhandler e s' hout)
  · exact ht
  · exact ht

theorem Faithful.bind {f : α → Traced σ τ β} (ht : t.Faithful loyal)
    (hf : ∀ a, (f a).Faithful loyal) : (t.bind f).Faithful loyal := fun s => sound_bind (ht s) hf

theorem Faithful.recover {handler : ParseError → Traced σ τ α} (ht : t.Faithful loyal)
    (hhandler : ∀ e, (handler e).Faithful loyal) : (t.recover handler).Faithful loyal :=
  fun s => sound_recover (ht s) fun e s' _ => hhandler e s'

/-! ## Steps that are not calls -/

/-- An action that neither touches the cursor nor fails fatally. -/
def Silent (a : Action σ α) : Prop :=
  ∀ s x s', a s = some (x, s') → s' = s ∧ ∀ e, x ≠ .error (.stream e)

omit [Cursor σ τ] in
theorem silent_pure (v : α) : Silent (.pure v : Action σ α) := by
  rintro s _ _ ⟨⟩
  exact ⟨rfl, nofun⟩

omit [Cursor σ τ] in
theorem silent_ask (q : σ → α) : Silent (.ask q) := by
  rintro s _ _ ⟨⟩
  exact ⟨rfl, nofun⟩

omit [Cursor σ τ] in
theorem silent_fail (e : ParseError) : Silent (.fail (.parse e) : Action σ α) := by
  rintro s _ _ ⟨⟩
  exact ⟨rfl, nofun⟩

theorem silent_error (message : String) : Silent (.error message : Action σ α) := by
  rintro s _ _ ⟨⟩
  exact ⟨rfl, nofun⟩

omit [Cursor σ τ] in
theorem silent_spent : Silent (.spent : Action σ α) := nofun

theorem faithful_quiet {a : Action σ α} (ha : Silent a) :
    (quiet a : Traced σ τ α).Faithful loyal := fun s =>
  { recounts := ⟨s, .nil s, fun x s' h => (ha s x s' h).1⟩
    arose := fun e s' h => absurd rfl ((ha s _ s' h).2 e)
    ends := fun _ => .calm nofun fun e s' h => (ha s _ s' h).2 e rfl }

theorem Faithful.map (f : α → β) (ht : t.Faithful loyal) : (t.map f).Faithful loyal :=
  ht.bind fun _ => faithful_quiet (silent_pure _)

theorem Faithful.label (message : String) (ht : t.Faithful loyal) :
    (t.label message).Faithful loyal :=
  ht.recover fun _ => faithful_quiet (silent_fail _)

/-- Turning failures into values is where loyalty ends. -/
theorem Faithful.observe (ht : t.Faithful loyal) (hloyal : ¬ loyal) :
    t.observe.Faithful loyal := by
  intro s
  refine (ht s).relabel ?_ ?_ fun h => absurd h hloyal
  all_goals
    rw [Action.observe, erase]
    rcases (t s).outcome with _ | ⟨x, s₁⟩ <;> simp

theorem faithful_raise (f : Failure) : (raise f : Traced σ τ α).Faithful loyal := by
  intro s
  refine .single (.raised f (.nil s)) fun e => ?_
  cases f <;> simp [Event.fatal?]

/-! ## Calls -/

/-- **A call**: the log has the answer, and the answer is fatal exactly when the result is. -/
theorem faithful_call {c : Call} {op : σ → Except Failure α × σ} {answer : α → Answer τ}
    (hop : ∀ s, Cursor.perform c s = ((op s).1.map answer, (op s).2)) :
    (call c op : Traced σ τ α).Faithful loyal := by
  intro s
  have hrecounts := Recounts.called c (.nil (Cursor.perform c s).2)
  rw [call, noting, Action.ofOp]
  rw [hop] at hrecounts ⊢
  refine .single hrecounts fun e => ?_
  rcases (op s).1 with (_ | _) | _ <;> simp [Event.fatal?, Except.map]

theorem faithful_peek : (peek : Traced σ τ τ).Faithful loyal := faithful_call fun _ => rfl

theorem faithful_next : (next : Traced σ τ τ).Faithful loyal := faithful_call fun _ => rfl

theorem faithful_back (n : Nat) : (back n : Traced σ τ Unit).Faithful loyal :=
  faithful_call fun _ => rfl

/-! ## Returning -/

theorem faithful_skip : ∀ k : Nat, (skip k : Traced σ τ Unit).Faithful loyal
  | 0 => faithful_quiet (silent_pure ())
  | k + 1 => faithful_next.bind fun _ => faithful_skip k

theorem faithful_moveTo (target : Nat) : (moveTo target : Traced σ τ Unit).Faithful loyal := by
  intro s
  by_cases hle : target ≤ Cursor.pos s
  · rw [moveTo, if_pos hle]
    exact faithful_back _ s
  · rw [moveTo, if_neg hle]
    exact faithful_skip _ s

/-- A refusal is noted where the refused move has left the cursor. -/
theorem sound_refuse {target : Nat} {cause : ParseError} {s₀ : σ}
    (hmove : Cursor.moveTo target s₀ = (.error (.parse cause), s)) :
    (refuse target cause s : Trace σ τ Unit).Sound loyal s :=
  .single (.refused hmove (.nil s)) fun e => by simp [Event.fatal?]

theorem faithful_rewind (target : Nat) : (rewind target : Traced σ τ Unit).Faithful loyal := by
  intro s
  refine sound_recover (faithful_moveTo target s) fun e s' hout => ?_
  have hmove : some (Cursor.moveTo target s) = some (.error (.parse e), s') :=
    (congrFun (erase_moveTo target) s).symm.trans hout
  exact sound_refuse (Option.some.inj hmove)

/-! ## Attempts, repetition, choice -/

theorem Faithful.attempt (ht : t.Faithful loyal) : t.attempt.Faithful loyal :=
  (faithful_quiet (silent_ask _)).bind fun start => ht.recover fun _ =>
    (faithful_rewind start).bind fun _ => faithful_quiet (silent_fail _)

theorem Faithful.optional (ht : t.Faithful loyal) : t.optional.Faithful loyal :=
  (ht.attempt.map some).recover fun _ => faithful_quiet (silent_pure none)

theorem Faithful.lookAhead (ht : t.Faithful loyal) : t.lookAhead.Faithful loyal :=
  (faithful_quiet (silent_ask _)).bind fun start =>
    ht.attempt.bind fun _ => (faithful_rewind start).map _

theorem Faithful.many (ht : t.Faithful loyal) : ∀ n : Nat, (many n t).Faithful loyal
  | 0 => faithful_quiet silent_spent
  | n + 1 => by
    refine ht.optional.bind fun found => ?_
    cases found with
    | none => exact faithful_quiet (silent_pure [])
    | some a => exact (ht.many n).map _

theorem Faithful.manyOne (ht : t.Faithful loyal) (n : Nat) : (manyOne n t).Faithful loyal := by
  refine (faithful_quiet (silent_ask _)).bind fun start => (ht.many n).bind fun values => ?_
  cases values with
  | nil => exact faithful_quiet (silent_fail _)
  | cons a as => exact faithful_quiet (silent_pure _)

theorem faithful_scan (accepts : τ → Bool) (step : τ → β → β) (init : β) : ∀ n : Nat,
    (scan accepts step init n : Traced σ τ β).Faithful loyal
  | 0 => faithful_quiet silent_spent
  | n + 1 => by
    refine (faithful_quiet (silent_ask _)).bind fun ended => ?_
    cases ended with
    | true => exact faithful_quiet (silent_pure init)
    | false =>
      refine faithful_peek.bind fun seen => ?_
      cases accepts seen with
      | true => exact faithful_next.bind fun _ => (faithful_scan accepts step init n).map _
      | false => exact faithful_quiet (silent_pure init)

theorem faithful_choice {ts : List (Traced σ τ α)} (hts : ∀ t ∈ ts, t.Faithful loyal) :
    (choice ts).Faithful loyal := by
  refine (faithful_quiet (silent_ask _)).bind fun start => ?_
  induction ts with
  | nil => exact faithful_quiet (silent_fail _)
  | cons t ts ih =>
    exact (hts t List.mem_cons_self).attempt.recover fun _ =>
      ih fun t' ht' => hts t' (List.mem_cons_of_mem _ ht')

end Traced

end Backtrack
