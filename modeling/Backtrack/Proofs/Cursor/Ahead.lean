import Backtrack.Proofs.Action.Inversion
import Backtrack.Proofs.Cursor.Honest
import Backtrack.Proofs.Reader.Mirror

/-!
# Proofs/Cursor/Ahead — what a cursor still has ahead of it

    s, x :: more ahead   ──next──▸   x       s', more ahead        one symbol further
                         ──next──▸   fatal   s', x :: more ahead   broken off

Seen from where it stands, a cursor is the list of the symbols still to come.  Looking shows its
head, and taking leaves its tail, unless the cursor breaks off; then it has not moved (`Feeds`).
What goes through its input without ever turning back asks for nothing else, so all it does is told
by one list: either it gets past the symbols it is after (`Further`), or the cursor breaks off at
one of them (`BrokenOff`).

A cursor over loaded data never breaks off.  A reader does where a refill fails, and only there:
what it has forgotten is behind it.
-/

namespace Backtrack

/-! ## Beginnings -/

/-- **The longest beginning of `items` for which `holds`.** -/
structure LongestBeginning {α : Type} (holds : List α → Prop) (items text : List α) : Prop where
  begins : text <+: items
  of_text : holds text
  length_le : ∀ other, other <+: items → holds other → other.length ≤ text.length

/-- A beginning that cannot be extended by one symbol is the longest, if what holds of a text holds
of its beginnings. -/
theorem longestBeginning_of_stuck {α : Type} {holds : List α → Prop} {text after : List α}
    (hbegins : ∀ {shorter longer}, shorter <+: longer → holds longer → holds shorter)
    (htext : holds text) (hstuck : ∀ x ∈ after.head?, ¬ holds (text ++ [x])) :
    LongestBeginning holds (text ++ after) text where
  begins := List.prefix_append text after
  of_text := htext
  length_le other hother hholds := by
    refine Nat.le_of_not_lt fun hlonger => ?_
    obtain ⟨tail, rfl⟩ := List.prefix_of_prefix_length_le (List.prefix_append text after) hother
      (Nat.le_of_lt hlonger)
    rw [List.prefix_append_right_inj] at hother
    rcases tail with _ | ⟨x, tail⟩
    · exact absurd hlonger (by simp)
    · obtain ⟨rest, rfl⟩ := hother
      refine hstuck x rfl (hbegins ?_ hholds)
      exact (List.prefix_append_right_inj text).2 (List.prefix_append [x] tail)

namespace Cursor

variable {σ τ β : Type} [Cursor σ τ] {valid : σ → Prop} {ahead : σ → List τ}
  {breaks : σ → StreamError → σ → Prop} {s s₁ s' : σ} {x : τ} {k : Nat} {e : StreamError}

/-! ## Cursors that feed on a list -/

/-- **A cursor that hands out `ahead`, symbol by symbol.**  `breaks` is how it may fail to take the
next one. -/
structure Feeds (valid : σ → Prop) (ahead : σ → List τ) (breaks : σ → StreamError → σ → Prop) :
    Prop where
  atEnd_eq : ∀ {s : σ}, valid s → atEnd s = (ahead s).isEmpty
  peek_nil : ∀ {s : σ}, valid s → ahead s = [] → peek s = (.error (peekPastEnd (pos s)), s)
  peek_cons : ∀ {s : σ} {x : τ} {more : List τ}, valid s → ahead s = x :: more →
    peek s = (.ok x, s)
  next_cons : ∀ {s : σ} {x : τ} {more : List τ}, valid s → ahead s = x :: more →
    (∃ s', next s = (.ok x, s') ∧ valid s' ∧ pos s' = pos s + 1 ∧ ahead s' = more) ∨
      ∃ e s', next s = (.error (.stream e), s') ∧ breaks s e s' ∧ pos s' = pos s ∧
        ahead s' = ahead s

/-- No way to break off. -/
def NeverBreaks (_ : σ) (_ : StreamError) (_ : σ) : Prop := False

/-- **`k` symbols further on**, which have been taken one by one. -/
structure Further (ahead : σ → List τ) (k : Nat) (s s' : σ) : Prop where
  skip_eq : skip k s = (.ok (), s')
  pos_eq : pos s' = pos s + k
  ahead_eq : ahead s' = (ahead s).drop k

/-- **Broken off after `k` symbols**: the next one could not be taken, and is still ahead. -/
structure BrokenOff (ahead : σ → List τ) (breaks : σ → StreamError → σ → Prop) (k : Nat) (s : σ)
    (e : StreamError) (s' : σ) : Prop where
  taking : ∃ s₁, skip k s = (.ok (), s₁) ∧ next s₁ = (.error (.stream e), s') ∧ breaks s₁ e s'
  pos_eq : pos s' = pos s + k
  ahead_eq : ahead s' = (ahead s).drop k

/-- A cursor that cannot break off has not. -/
theorem not_brokenOff : ¬ BrokenOff ahead NeverBreaks k s e s' := by
  rintro ⟨⟨s₁, -, -, hnever⟩, -, -⟩
  exact hnever

theorem Further.refl (s : σ) : Further ahead 0 s s := ⟨rfl, rfl, rfl⟩

/-- Past a text that was ahead, what comes after it is ahead. -/
theorem Further.ahead_eq_after {text after : List τ} (h : Further ahead text.length s s')
    (hahead : ahead s = text ++ after) : ahead s' = after := by
  rw [h.ahead_eq, hahead, List.drop_left]

section Cons

variable (hnext : next s = (.ok x, s₁)) (hpos : pos s₁ = pos s + 1)
  (hahead : ahead s₁ = (ahead s).drop 1)
include hnext hpos hahead

/-- One symbol, and then `k` more. -/
theorem Further.cons (h : Further ahead k s₁ s') : Further ahead (k + 1) s s' where
  skip_eq := skip_succ_eq_ok_iff.2 ⟨x, s₁, hnext, h.skip_eq⟩
  pos_eq := by rw [h.pos_eq, hpos, Nat.add_assoc, Nat.add_comm 1]
  ahead_eq := by rw [h.ahead_eq, hahead, List.drop_drop, Nat.add_comm 1]

theorem BrokenOff.cons (h : BrokenOff ahead breaks k s₁ e s') :
    BrokenOff ahead breaks (k + 1) s e s' where
  taking := by
    obtain ⟨s₂, hskip, hbreaks⟩ := h.taking
    exact ⟨s₂, skip_succ_eq_ok_iff.2 ⟨x, s₁, hnext, hskip⟩, hbreaks⟩
  pos_eq := by rw [h.pos_eq, hpos, Nat.add_assoc, Nat.add_comm 1]
  ahead_eq := by rw [h.ahead_eq, hahead, List.drop_drop, Nat.add_comm 1]

end Cons

/-- **What goes through a text symbol by symbol**: `act` takes the first symbol of a text that is
ahead and goes on with the others.  Then it gets past all of them and does there what it does
without a text, or it breaks off at one of them. -/
theorem Feeds.goes_through (feeds : Feeds valid ahead breaks) (act : List τ → Action σ β)
    (step : τ → β → β) {text after : List τ}
    (hact : ∀ {x rest s}, x :: rest <:+ text → valid s → ahead s = x :: rest ++ after →
      act (x :: rest) s
        = ((Action.ofOp next).bind fun taken => (act rest).map (step taken)) s)
    (hs : valid s) (hahead : ahead s = text ++ after) :
    (∃ s', Further ahead text.length s s' ∧ valid s' ∧
        act text s = (act []).map (fun b => text.foldr step b) s') ∨
      ∃ k e s', k < text.length ∧ BrokenOff ahead breaks k s e s' ∧
        act text s = some (.error (.stream e), s') := by
  induction text generalizing s with
  | nil => exact .inl ⟨s, .refl s, hs, (congrFun (Action.bind_pure (act [])) s).symm⟩
  | cons x text ih =>
    have hgoes := hact (List.suffix_refl _) hs hahead
    obtain ⟨s₁, hnext, hs₁, hpos, hmore⟩ | ⟨e, s', hnext, hbreaks, hpos, hsame⟩ :=
      feeds.next_cons hs hahead
    · have hdrop : ahead s₁ = (ahead s).drop 1 := by
        rw [hmore, hahead]
        rfl
      have hrest : act (x :: text) s = (act text).map (step x) s₁ := by
        rw [hgoes, Action.bind, Action.ofOp, hnext]
      obtain ⟨s', hfurther, hs', hrun⟩ | ⟨k, e, s', hlt, hbroken, hrun⟩ :=
        ih (fun hsuffix => hact (hsuffix.trans (List.suffix_cons x text))) hs₁ hmore
      · refine .inl ⟨s', hfurther.cons hnext hpos hdrop, hs', ?_⟩
        rw [hrest, Action.map_congr _ hrun, Action.map_map]
        rfl
      · refine .inr ⟨k + 1, e, s', Nat.succ_lt_succ hlt, hbroken.cons hnext hpos hdrop, ?_⟩
        rw [hrest]
        exact Action.map_eq_error_iff.2 hrun
    · refine .inr ⟨0, e, s', Nat.succ_pos _, ⟨⟨s, rfl, hnext, hbreaks⟩, hpos, hsame⟩, ?_⟩
      rw [hgoes, Action.bind, Action.ofOp, hnext]

/-! ## Loaded data -/

theorem getElem?_of_drop {items : List τ} {p : Nat} {more : List τ}
    (h : items.drop p = x :: more) : items[p]? = some x ∧ items.drop (p + 1) = more := by
  refine ⟨?_, ?_⟩
  · rw [← List.head?_drop, h]
    rfl
  · rw [← List.tail_drop, h]
    rfl

/-- **An index into loaded data hands out what is behind it**, and never breaks off. -/
theorem Indexed.feeds {items : σ → List τ} (h : Indexed items)
    (hend : ∀ s : σ, atEnd s = true ↔ (items s)[pos s]? = none) :
    Feeds (fun _ => True) (fun s => (items s).drop (pos s)) NeverBreaks where
  atEnd_eq {s} _ := by
    rw [Bool.eq_iff_iff, hend, List.isEmpty_iff, List.drop_eq_nil_iff, List.getElem?_eq_none_iff]
  peek_nil {s} _ hnil := by
    have hget := List.getElem?_eq_none_iff.2 (List.drop_eq_nil_iff.1 hnil)
    rw [h.peek_eq, peekAt, hget]
  peek_cons {s x more} _ hcons := by
    rw [h.peek_eq, peekAt, (getElem?_of_drop hcons).1]
  next_cons {s x more} _ hcons := by
    have hnext := h.next_eq s
    rw [nextAt, (getElem?_of_drop hcons).1] at hnext
    obtain ⟨hok, hpos⟩ := Prod.mk.inj hnext
    refine .inl ⟨(next s).2, Prod.ext hok rfl, trivial, hpos, ?_⟩
    rw [hpos, h.items_next]
    exact (getElem?_of_drop hcons).2

end Cursor

theorem ArrayCursor.feeds {α : Type} :
    Cursor.Feeds (fun _ => True) (ArrayCursor.remaining (α := α)) Cursor.NeverBreaks :=
  indexed.feeds atEnd_iff

theorem ListCursor.remaining_eq_drop {α : Type} (l : ListCursor α) :
    l.remaining = l.toList.drop l.pos := by
  have hlength : l.pos = l.behind.reverse.length := by rw [List.length_reverse, l.pos_eq]
  rw [toList, hlength, List.drop_left]
  rfl

theorem ListCursor.feeds {α : Type} :
    Cursor.Feeds (fun _ => True) (ListCursor.remaining (α := α)) Cursor.NeverBreaks := by
  rw [funext remaining_eq_drop]
  exact indexed.feeds atEnd_iff

/-! ## Readers -/

namespace Reader

variable {source : Source} {config : ReaderConfig} {r : Reader}

/-- **The bytes still to come**: the loaded ones that are unread, and those the source will hand out
before it first answers with nothing. -/
def remaining (r : Reader) : List UInt8 := r.window.toList.drop (r.pos - r.base) ++ r.toCome

theorem Invariant.remaining_eq_drop (h : Invariant source config r) :
    r.remaining = (source.delivered config.chunkSize).drop r.pos := by
  have hunread : r.pos - r.base ≤ r.window.toList.length := by
    have := h.pos_le_end
    rw [loadedEnd] at this
    rw [Array.length_toList]
    omega
  rw [remaining, ← List.drop_append_of_le_length hunread, ← h.drop_delivered, List.drop_drop,
    Nat.add_sub_cancel' h.base_le_pos]

/-- A reader and an array cursor in step have the same ahead of them. -/
theorem InStep.remaining_eq {m : ArrayCursor UInt8} (h : InStep source config m r) :
    r.remaining = m.remaining := by
  rw [h.invariant.remaining_eq_drop, ← h.toList_eq, ← h.pos_eq]
  rfl

/-- **The source fails to refill the window**, interruptions apart, and nothing but the source is
touched. -/
def RefillFails (r : Reader) (e : StreamError) (r' : Reader) : Prop :=
  ∃ cause src', r.source.fetch r.config.chunkSize = (.error cause, src') ∧
    e = .read r.loadedEnd cause ∧ r' = { r with source := src' }

/-- **A reader within reach hands out what is still to come**, and breaks off only where a refill
fails. -/
theorem feeds (source : Source) (config : ReaderConfig) :
    Cursor.Feeds (Reachable source config) remaining RefillFails where
  atEnd_eq {r} hr := by
    rw [Bool.eq_iff_iff, hr.invariant.atEnd_iff_getElem?, hr.invariant.remaining_eq_drop,
      List.isEmpty_iff, List.drop_eq_nil_iff, List.getElem?_eq_none_iff]
  peek_nil {r} hr hnil := by
    rw [hr.invariant.remaining_eq_drop, List.drop_eq_nil_iff, ← List.getElem?_eq_none_iff] at hnil
    change (r.peek, r) = _
    rw [hr.invariant.peek_eq_peekAt, Cursor.peekAt, hnil]
    rfl
  peek_cons {r b more} hr hcons := by
    rw [hr.invariant.remaining_eq_drop] at hcons
    change (r.peek, r) = _
    rw [hr.invariant.peek_eq_peekAt, Cursor.peekAt, (Cursor.getElem?_of_drop hcons).1]
  next_cons {r b more} hr hcons := by
    have hnext' : Reachable source config r.next.2 := hr.call .next
    rw [hr.invariant.remaining_eq_drop] at hcons
    obtain ⟨hget, hmore⟩ := Cursor.getElem?_of_drop hcons
    rcases hr.invariant.next_eq_nextAt_or with hnext | ⟨b', e, src', -, hfetch, hnext⟩
    · rw [Cursor.nextAt, hget] at hnext
      obtain ⟨hok, hpos⟩ := Prod.mk.inj hnext
      refine .inl ⟨r.next.2, Prod.ext hok rfl, hnext', hpos, ?_⟩
      rw [hnext'.invariant.remaining_eq_drop, hpos, hmore]
    · rw [← hr.invariant.config_eq] at hfetch
      refine .inr ⟨_, r.next.2, hnext.trans (by rw [hnext]), ⟨e, src', hfetch, rfl, ?_⟩, ?_, ?_⟩
      · rw [hnext]
      · change r.next.2.pos = r.pos
        rw [hnext]
      · rw [hnext'.invariant.remaining_eq_drop, hr.invariant.remaining_eq_drop, hnext]

end Reader

end Backtrack
