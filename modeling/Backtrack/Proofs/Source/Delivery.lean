import Backtrack.Source

/-!
# Proofs/Source/Delivery — what a source hands out before it first answers with nothing

    delivered = bytes of call 1 ++ bytes of call 2 ++ …      up to the first empty answer

A failing call adds nothing and does not end the input.  Every call a reader makes asks for the same
number of bytes, so what a source delivers is fixed by its script and does not depend on *when* it
is asked: one `fetch` takes its bytes off the front (`FetchHanded`), or fails and leaves everything
where it was (`FetchFailed`).
-/

namespace Backtrack.Source

variable {size : Nat} {src src' : Source} {bytes : List UInt8} {e : IoError}

/-! ## What is delivered -/

/-- The bytes handed out up to the first empty answer, by the replies of a script and then by
answers in full. -/
def delivery (size : Nat) : List Reply → List UInt8 → List UInt8
  | [], rest => if size = 0 then [] else rest
  | .upTo limit :: script, rest =>
    if (rest.take (min size limit)).isEmpty then []
    else rest.take (min size limit) ++ delivery size script (rest.drop (min size limit))
  | .fail _ :: script, rest => delivery size script rest

/-- **The input a source stands for**: all it hands out, asked for `size` bytes at a time, before it
first answers with nothing. -/
def delivered (size : Nat) (src : Source) : List UInt8 := delivery size src.script src.rest

/-- Whether the source never fails, interruptions apart. -/
def Steady (src : Source) : Prop := ∀ e, .fail e ∈ src.script → e.kind = .interrupted

/-- **A source delivers `D`** if that is what it hands out, in whatever pieces, and the only
failures on the way are interruptions. -/
structure Delivers (size : Nat) (D : List UInt8) (src : Source) : Prop where
  delivered_eq : src.delivered size = D
  steady : src.Steady

/-- Short answers that are not empty, and interruptions, deliver all bytes. -/
theorem delivery_eq_self (hsize : 0 < size) : ∀ (script : List Reply) (rest : List UInt8),
    (∀ reply ∈ script, reply.isInterrupted = true ∨ ∃ limit, reply = .upTo (limit + 1)) →
      delivery size script rest = rest
  | [], rest, _ => by simp [delivery, Nat.ne_of_gt hsize]
  | .fail _ :: script, rest, h =>
    delivery_eq_self hsize script rest fun reply hr => h reply (List.mem_cons_of_mem _ hr)
  | .upTo limit :: script, rest, h => by
    have hlimit : 0 < limit := by
      rcases h _ List.mem_cons_self with h | ⟨k, h⟩
      · cases h
      · cases h; omega
    have ih := delivery_eq_self hsize script (rest.drop (min size limit)) fun reply hr =>
      h reply (List.mem_cons_of_mem _ hr)
    rw [delivery, ih, List.take_append_drop]
    split
    · next hempty =>
      rcases List.take_eq_nil_iff.1 (List.isEmpty_iff.1 hempty) with hmin | hrest
      · omega
      · exact hrest.symm
    · rfl

/-- **A reader's input in any pieces**: a source over `D` whose answers are short but not empty, or
interrupted, delivers `D`. -/
theorem delivers_ofBytes (hsize : 0 < size) {script : List Reply} {D : List UInt8}
    (h : ∀ reply ∈ script, reply.isInterrupted = true ∨ ∃ limit, reply = .upTo (limit + 1)) :
    (ofBytes D script).Delivers size D where
  delivered_eq := delivery_eq_self hsize script D h
  steady e he := by
    rcases h _ he with hint | ⟨limit, hlimit⟩
    · simpa [Reply.isInterrupted] using hint
    · cases hlimit

/-! ## One call -/

/-- A failing call leaves what is delivered as it is. -/
theorem delivered_of_read_error (h : src.read size = (.error e, src')) :
    src'.delivered size = src.delivered size := by
  obtain ⟨script, rest, reads, loaded⟩ := src
  rcases script with - | ⟨limit | e', script⟩ <;> simp only [read, Prod.mk.injEq] at h
  · cases h.1
  · cases h.1
  · rw [← h.2]
    rfl

/-- A call that hands out bytes takes them off the front of what is delivered; one that hands out
nothing ends it. -/
theorem delivered_of_read_ok (h : src.read size = (.ok bytes, src')) :
    src.delivered size = if bytes.isEmpty then [] else bytes ++ src'.delivered size := by
  obtain ⟨script, rest, reads, loaded⟩ := src
  rcases script with - | ⟨limit | e', script⟩ <;>
    simp only [read, handOut, Prod.mk.injEq, Except.ok.injEq] at h
  · obtain ⟨rfl, rfl⟩ := h
    by_cases hsize : size = 0
    · simp [delivered, delivery, hsize]
    · by_cases hrest : rest = []
      · simp [delivered, delivery, hrest]
      · simp [delivered, delivery, hsize, hrest]
  · obtain ⟨rfl, rfl⟩ := h
    rfl
  · cases h.1

/-! ## Calls until one is not interrupted -/

/-- Skipping interrupted calls leaves what is delivered as it is. -/
theorem delivered_skipInterrupted (size : Nat) (src : Source) :
    src.skipInterrupted.delivered size = src.delivered size := by
  obtain ⟨script, rest, reads, loaded⟩ := src
  unfold delivered skipInterrupted
  dsimp only
  induction script with
  | nil => rfl
  | cons reply script ih =>
    cases reply with
    | upTo limit => rfl
    | fail e =>
      rw [List.dropWhile_cons]
      split
      · exact ih
      · rfl

/-- **A fetch that failed**: nothing has been handed out, and what is delivered is still to come. -/
structure FetchFailed (size : Nat) (src : Source) (e : IoError) (src' : Source) : Prop where
  scripted : .fail e ∈ src.script
  not_interrupted : e.kind ≠ .interrupted
  script_suffix : src'.script <:+ src.script
  rest_eq : src'.rest = src.rest
  loaded_eq : src'.loaded = src.loaded
  delivered_eq : src'.delivered size = src.delivered size

/-- **A fetch that handed out `bytes`**: they come off the front of the bytes left, and of what is
delivered; an empty answer is the end of what is delivered. -/
structure FetchHanded (size : Nat) (src : Source) (bytes : List UInt8) (src' : Source) : Prop where
  script_suffix : src'.script <:+ src.script
  append_rest : bytes ++ src'.rest = src.rest
  loaded_eq : src'.loaded = src.loaded + bytes.length
  length_le : bytes.length ≤ size
  delivered_eq : src.delivered size = if bytes.isEmpty then [] else bytes ++ src'.delivered size

theorem skipInterrupted_script_suffix (src : Source) :
    src.skipInterrupted.script <:+ src.script := List.dropWhile_suffix _

/-- A fetch that fails has met a failure of the script that is no interruption. -/
theorem fetchFailed_of_fetch (h : src.fetch size = (.error e, src')) :
    FetchFailed size src e src' := by
  have hdelivered := delivered_of_read_error h
  rw [delivered_skipInterrupted] at hdelivered
  have hsuffix := skipInterrupted_script_suffix src
  unfold fetch read at h
  generalize hscript : src.skipInterrupted.script = script at h hsuffix
  rcases script with - | ⟨limit | e', script⟩ <;> simp only [Prod.mk.injEq] at h
  · cases h.1
  · cases h.1
  · obtain ⟨he, rfl⟩ := h
    cases he
    refine ⟨hsuffix.subset List.mem_cons_self, ?_, (List.suffix_cons _ _).trans hsuffix, rfl, rfl,
      hdelivered⟩
    -- what stands first after the interrupted replies is not interrupted
    have hhead := List.head?_dropWhile_not Reply.isInterrupted src.script
    rw [show src.script.dropWhile Reply.isInterrupted = _ from hscript] at hhead
    simpa [Reply.isInterrupted] using hhead

/-- A fetch that hands out bytes takes them off the front. -/
theorem fetchHanded_of_fetch (h : src.fetch size = (.ok bytes, src')) :
    FetchHanded size src bytes src' := by
  have hdelivered := delivered_of_read_ok h
  rw [delivered_skipInterrupted] at hdelivered
  have hsuffix := skipInterrupted_script_suffix src
  unfold fetch read at h
  generalize hscript : src.skipInterrupted.script = script at h hsuffix
  rcases script with - | ⟨limit | e', script⟩ <;>
    simp only [handOut, Prod.mk.injEq, Except.ok.injEq] at h
  · obtain ⟨rfl, rfl⟩ := h
    exact ⟨hsuffix, List.take_append_drop _ _, rfl, List.length_take_le _ _, hdelivered⟩
  · obtain ⟨rfl, rfl⟩ := h
    exact ⟨(List.suffix_cons _ _).trans hsuffix, List.take_append_drop _ _, rfl,
      Nat.le_trans (List.length_take_le _ _) (Nat.min_le_left _ _), hdelivered⟩
  · cases h.1

/-- A steady source never fails to fetch. -/
theorem Steady.not_fetchFailed (h : src.Steady) : ¬ FetchFailed size src e src' :=
  fun hfail => hfail.not_interrupted (h e hfail.scripted)

/-- …and stays steady. -/
theorem Steady.of_suffix (h : src.Steady) (hsuffix : src'.script <:+ src.script) : src'.Steady :=
  fun e he => h e (hsuffix.subset he)

end Backtrack.Source
