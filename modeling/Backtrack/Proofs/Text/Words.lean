import Mathlib.Data.List.DropRight
import Backtrack.Proofs.Backend.Between
import Backtrack.Proofs.Backend.Equivalence
import Backtrack.Proofs.Backend.Scan
import Backtrack.Proofs.Backend.Separated
import Backtrack.Text.Literal

/-!
# Proofs/Text/Words — the words of a text

    D   =   word (blank word)* blank
            └──── taken ─────┘

A word stops in front of whitespace, and whitespace in front of a word, so the rounds of "whitespace
and a word" go through a text that is cut up just so (`Spaced`).  The round after the last word
skips the blank behind it and then finds no word; it is undone, and the blank stays.

**Whitespace may match nothing**, yet no word is cut in two: where one has stopped, whitespace or
the end comes next.
-/

namespace Backtrack

open ArrayCursor (between)

variable {N : Type → Type} {σ τ α β : Type}

/-! ## The words of a text -/

namespace Byte

variable {b : UInt8} {blank word after front trailing : List UInt8} {ws : List (List UInt8)}

/-- **The words of a text**: its maximal runs without whitespace, in order. -/
def words (text : List UInt8) : List (List UInt8) :=
  (text.splitOnP isWhitespace).filter (!·.isEmpty)

/-- Whitespace divides the words in front of it from those behind it. -/
theorem words_append_cons (hb : isWhitespace b = true) (xs ys : List UInt8) :
    words (xs ++ b :: ys) = words xs ++ words ys := by
  rw [words, List.splitOnP_append_cons xs ys hb, List.filter_append]
  rfl

theorem words_cons (hb : isWhitespace b = true) (text : List UInt8) :
    words (b :: text) = words text := words_append_cons hb [] text

theorem words_blank_append (hblank : ∀ b ∈ blank, isWhitespace b = true) :
    words (blank ++ after) = words after := by
  induction blank with
  | nil => rfl
  | cons b blank ih =>
    obtain ⟨hb, hblank⟩ := List.forall_mem_cons.1 hblank
    exact (words_cons hb _).trans (ih hblank)

/-- A word and, in front of whitespace or the end, the words behind it. -/
theorem words_word_append (hne : word ≠ []) (hword : ∀ b ∈ word, isWhitespace b = false)
    (hstops : ∀ b ∈ after.head?, isWhitespace b = true) :
    words (word ++ after) = word :: words after := by
  have hone : words word = [word] := by
    rw [words, List.splitOnP_eq_singleton hword]
    simp [hne]
  rcases after with _ | ⟨b, after⟩
  · rw [List.append_nil, hone]
    rfl
  · have hb := hstops b rfl
    rw [words_append_cons hb, hone, words_cons hb]
    rfl

/-- **Words, each behind whitespace**, and the end right behind the last. -/
inductive Spaced : List UInt8 → List (List UInt8) → Prop where
  | nil : Spaced [] []
  | cons {blank word front : List UInt8} {ws : List (List UInt8)}
      (hblank : ∀ b ∈ blank, isWhitespace b = true) (hne : word ≠ [])
      (hword : ∀ b ∈ word, isWhitespace b = false)
      (hstops : ∀ b ∈ front.head?, isWhitespace b = true) (hfront : Spaced front ws) :
      Spaced (blank ++ word ++ front) (word :: ws)

/-- Every text is cut up so, up to the blank at its end. -/
theorem exists_spaced (text : List UInt8) : ∃ front trailing ws, text = front ++ trailing ∧
    Spaced front ws ∧ ∀ b ∈ trailing, isWhitespace b = true := by
  induction hlength : text.length using Nat.strongRecOn generalizing text with
  | ind n ih =>
    obtain ⟨blank, text', rfl, hblank, hnext⟩ := exists_run isWhitespace text
    obtain ⟨word, after, rfl, hword, hstops⟩ := exists_run (fun b => !isWhitespace b) text'
    simp only [Bool.not_eq_true', Bool.not_eq_false'] at hword hstops
    rcases eq_or_ne word [] with rfl | hne
    · -- what follows the blank is neither whitespace nor anything else
      have hafter : after = [] := by
        rcases after with _ | ⟨b, after⟩
        · rfl
        · cases (hstops b rfl).symm.trans (hnext b rfl)
      refine ⟨[], blank, [], ?_, .nil, hblank⟩
      rw [hafter, List.append_nil, List.append_nil, List.nil_append]
    · have hshorter : after.length < n := by
        have := List.length_pos_of_ne_nil hne
        simp only [List.length_append] at hlength
        omega
      obtain ⟨front, trailing, ws, rfl, hfront, htrailing⟩ := ih _ hshorter after rfl
      refine ⟨blank ++ word ++ front, trailing, word :: ws, ?_, ?_, htrailing⟩
      · simp only [List.append_assoc]
      · refine .cons hblank hne hword (fun b hb => hstops b ?_) hfront
        rw [List.head?_append, Option.mem_def.1 hb]
        rfl

/-- Where a word has stopped it stops, whatever blank is at the end. -/
theorem stops_append (hstops : ∀ b ∈ front.head?, isWhitespace b = true)
    (htrailing : ∀ b ∈ trailing, isWhitespace b = true) :
    ∀ b ∈ (front ++ trailing).head?, isWhitespace b = true := by
  rcases front with _ | ⟨b, front⟩
  · exact fun b hb => htrailing b (List.mem_of_mem_head? hb)
  · exact hstops

namespace Spaced

theorem words_append (h : Spaced front ws) (htrailing : ∀ b ∈ trailing, isWhitespace b = true) :
    words (front ++ trailing) = ws := by
  induction h with
  | nil =>
    rw [List.nil_append, ← List.append_nil trailing, words_blank_append htrailing]
    rfl
  | cons hblank hne hword hstops _ ih =>
    rw [List.append_assoc, List.append_assoc, words_blank_append hblank,
      words_word_append hne hword (stops_append hstops htrailing), ih]

/-- The last byte is that of a word. -/
theorem getLast? (h : Spaced front ws) : ∀ b ∈ front.getLast?, isWhitespace b = false := by
  induction h with
  | nil => exact nofun
  | @cons blank word front ws hblank hne hword hstops _ ih =>
    intro b hb
    rw [List.getLast?_append, List.getLast?_append, List.getLast?_eq_some_getLast hne] at hb
    rcases hfront : front.getLast? with _ | c
    · rw [hfront] at hb
      cases hb
      exact hword _ (List.getLast_mem hne)
    · rw [hfront] at hb
      cases hb
      exact ih b hfront

/-- **Without the blank at its end**, the text ends behind its last word. -/
theorem rdropWhile_append (h : Spaced front ws)
    (htrailing : ∀ b ∈ trailing, isWhitespace b = true) :
    (front ++ trailing).rdropWhile isWhitespace = front ∧
      (front ++ trailing).rtakeWhile isWhitespace = trailing := by
  have hfront : (front ++ trailing).rdropWhile isWhitespace = front := by
    rw [List.rdropWhile, List.reverse_append,
      List.dropWhile_append_of_pos (fun b hb => htrailing b (List.mem_reverse.1 hb))]
    refine List.rdropWhile_eq_self_iff.2 fun hne => ?_
    rw [h.getLast? _ (List.getLast?_eq_some_getLast hne)]
    exact Bool.false_ne_true
  refine ⟨hfront, (List.append_right_inj front).1 ?_⟩
  nth_rewrite 1 [← hfront]
  exact List.rdropWhile_append_rtakeWhile

end Spaced

end Byte

/-! ## Reading them -/

open Byte (isWhitespace toText)

theorem Byte.isEmpty_toText (bytes : List UInt8) : (toText bytes).isEmpty = bytes.isEmpty := by
  rw [Bool.eq_iff_iff, String.isEmpty_iff, toText, List.isEmpty_iff, String.ofList_eq_empty_iff,
    List.map_eq_nil_iff]

namespace ArrayCursor

/-- **A scan over loaded data** folds up the run and is behind it. -/
theorem yields_scan (G : Grammar N τ) (accepts : τ → Bool) (step : τ → β → β) (init : β)
    (before : List τ) {run after : List τ} (hrun : ∀ x ∈ run, accepts x = true)
    (hstops : ∀ x ∈ after.head?, accepts x = false) :
    G.Yields (.scan accepts step init) (between before (run ++ after))
      (.ok (run.foldr step init)) (between (before ++ run) after) := by
  obtain ⟨m', hfurther, -, hscan⟩ | ⟨k, e, m', -, hbroken, -⟩ :=
    feeds.scan_goes_through step init hrun hstops trivial (remaining_between before (run ++ after))
  · have hyields : G.Yields (.scan accepts step init) (between before (run ++ after))
        (.ok (run.foldr step init)) m' := ⟨run.length + 1, hscan⟩
    obtain rfl : m' = between (before ++ run) after := by
      refine eq_of_toList_eq ((indexed.items_of_yields hyields).trans ?_) ?_
      · exact (List.append_assoc before run after).symm
      · exact hfurther.pos_eq.trans List.length_append.symm
    exact hyields
  · exact absurd hbroken Cursor.not_brokenOff

variable (G : Grammar N UInt8) (before : List UInt8) {blank word after front trailing : List UInt8}
  {ws : List (List UInt8)}

/-- A word is taken up to the whitespace, or the end, that comes next. -/
theorem yields_word (hne : word ≠ []) (hword : ∀ b ∈ word, isWhitespace b = false)
    (hstops : ∀ b ∈ after.head?, isWhitespace b = true) :
    G.Yields .word (between before (word ++ after)) (.ok (toText word))
      (between (before ++ word) after) := by
  have hscan := yields_scan G (fun b => !isWhitespace b) List.cons [] before
    (fun b hb => congrArg (!·) (hword b hb)) fun b hb => congrArg (!·) (hstops b hb)
  rw [List.foldr_cons_nil] at hscan
  refine (hscan.bind (Grammar.yields_pure (toText word))).bind ?_
  rw [if_neg]
  · exact Grammar.yields_pure _
  · rw [Byte.isEmpty_toText, List.isEmpty_iff]
    exact hne

/-- …and where that comes next at once there is no word. -/
theorem yields_word_refused (hstops : ∀ b ∈ after.head?, isWhitespace b = true) :
    G.Yields .word (between before after)
      (.error (.parse ⟨"expected a non-whitespace string", before.length⟩))
      (between before after) := by
  have hscan := yields_scan G (fun b => !isWhitespace b) List.cons [] before
    (List.forall_mem_nil _) fun b hb => congrArg (!·) (hstops b hb)
  rw [List.append_nil] at hscan
  exact (hscan.bind (Grammar.yields_pure (toText []))).bind (Grammar.yields_error _)

theorem yields_whitespace (hblank : ∀ b ∈ blank, isWhitespace b = true)
    (hnext : ∀ b ∈ after.head?, isWhitespace b = false) :
    G.Yields .whitespace (between before (blank ++ after)) (.ok ())
      (between (before ++ blank) after) :=
  yields_scan G isWhitespace _ _ before hblank hnext

/-- **The rounds of whitespace and a word** go through spaced words, and leave the blank behind
them. -/
theorem yields_many_words (h : Byte.Spaced front ws)
    (htrailing : ∀ b ∈ trailing, isWhitespace b = true) :
    G.Yields (.many (.bind .whitespace fun _ => .word)) (between before (front ++ trailing))
      (.ok (ws.map toText)) (between (before ++ front) trailing) := by
  induction h generalizing before with
  | nil =>
    -- the blank is skipped, and then no word comes
    have hskip : G.Yields .whitespace (between before (trailing ++ [])) (.ok ())
        (between (before ++ trailing) []) := yields_whitespace G before htrailing nofun
    have hend : ∀ b ∈ ([] : List UInt8).head?, isWhitespace b = true := nofun
    have hrefused := yields_word_refused G (before ++ trailing) hend
    rw [List.append_nil] at hskip ⊢
    exact yields_many_iff.2 (.inl ⟨rfl, rfl, _, _, hskip.bind hrefused⟩)
  | @cons blank word front ws hblank hne hword hstops _ ih =>
    have hnext : ∀ b ∈ (word ++ (front ++ trailing)).head?, isWhitespace b = false := by
      intro b hb
      rw [List.head?_append_of_ne_nil word hne] at hb
      exact hword b (List.mem_of_mem_head? hb)
    have hround := (yields_whitespace G before hblank hnext).bind (f := fun _ => .word)
      (yields_word G (before ++ blank) hne hword (Byte.stops_append hstops htrailing))
    rw [List.append_assoc, List.append_assoc, ← List.append_assoc before,
      ← List.append_assoc before]
    exact yields_many_iff.2 (.inr (.inr ⟨toText word, _, .ok _, hround, ih _, rfl⟩))

/-- **All words of a text that begins with one.** -/
theorem yields_words {text : List UInt8} (hfirst : ∃ b ∈ text.head?, isWhitespace b = false) :
    G.Yields (.sepBy .word .whitespace) (between [] text)
      (.ok ((Byte.words text).map toText))
      (between (text.rdropWhile isWhitespace) (text.rtakeWhile isWhitespace)) := by
  obtain ⟨front, trailing, ws, rfl, hspaced, htrailing⟩ := Byte.exists_spaced text
  obtain ⟨b, hb, hfirst⟩ := hfirst
  rw [(hspaced.rdropWhile_append htrailing).1, (hspaced.rdropWhile_append htrailing).2,
    hspaced.words_append htrailing]
  cases hspaced with
  | nil => cases hfirst.symm.trans (htrailing b (List.mem_of_mem_head? hb))
  | @cons blank word front ws hblank hne hword hstops hfront =>
    obtain rfl : blank = [] := by
      rcases blank with _ | ⟨c, blank⟩
      · rfl
      · cases hb
        cases hfirst.symm.trans (hblank b List.mem_cons_self)
    have hitem := yields_word G [] hne hword (Byte.stops_append hstops htrailing)
    have hothers := yields_many_words G ([] ++ word) hfront htrailing
    rw [List.append_assoc]
    exact hitem.sepBy_iff.2 ⟨_, hothers, rfl⟩

/-- A text that does not begin with a word is left alone. -/
theorem yields_no_words {text : List UInt8} (hstops : ∀ b ∈ text.head?, isWhitespace b = true) :
    G.Yields (.sepBy .word .whitespace) (between [] text) (.ok []) (between [] text) := by
  have hrefused := yields_attempt_of_parse (yields_word_refused G [] hstops)
  exact Grammar.yields_sepBy_iff.2 (.inl ⟨rfl, _, hrefused⟩)

end ArrayCursor

/-! ## On the other cursors -/

/-- A zipper and an array cursor in the same place have the same ahead of them. -/
theorem SamePlace.remaining_eq {l : ListCursor τ} {m : ArrayCursor τ} (h : SamePlace l m) :
    l.remaining = m.remaining := by
  rw [l.remaining_eq_drop, h.toList_eq, h.pos_eq]
  rfl

/-- What is yielded on the array is yielded on a zipper in the same place, which then has the same
ahead of it. -/
theorem SamePlace.exists_yields {G : Grammar N τ} {p : Parser N τ α} {x : Except Failure α}
    {m m' : ArrayCursor τ} {l : ListCursor τ} (h : SamePlace l m) (hm : G.Yields p m x m') :
    ∃ l', G.Yields p l x l' ∧ l'.pos = m'.pos ∧ l'.remaining = m'.remaining := by
  obtain ⟨l', hplace, hl⟩ := (array_simulates_list.symm fun _ => id).exists_yields h hm
  exact ⟨l', hl, hplace.pos_eq, hplace.remaining_eq⟩

/-- …and on an unbounded reader of a source that does not fail. -/
theorem Reader.InSteadyStep.exists_yields {source : Source} {config : ReaderConfig}
    {G : Grammar N UInt8} {p : Parser N UInt8 α} {x : Except Failure α}
    {m m' : ArrayCursor UInt8} {r : Reader} (h : InSteadyStep source config m r)
    (hunbounded : config.maxRetained = none) (hm : G.Yields p m x m') :
    ∃ r', G.Yields p r x r' ∧ r'.pos = m'.pos ∧ r'.remaining = m'.remaining := by
  obtain ⟨r', hstep, hr⟩ := (unbounded_simulates_array source config hunbounded).exists_yields h hm
  exact ⟨r', hr, hstep.pos_eq.symm, hstep.remaining_eq⟩

/-- **A text read word by word**: none of it, where it does not begin with a word, and else all its
words, up to the blank at its end. -/
structure ReadsWords [Cursor σ UInt8] (G : Grammar N UInt8) (ahead : σ → List UInt8)
    (text : List UInt8) (s : σ) : Prop where
  none_of_blank : (∀ b ∈ text.head?, isWhitespace b = true) →
    ∃ s', G.Yields (.sepBy .word .whitespace) s (.ok []) s' ∧
      Cursor.pos s' = 0 ∧ ahead s' = text
  all_of_word : (∃ b ∈ text.head?, isWhitespace b = false) →
    ∃ s', G.Yields (.sepBy .word .whitespace) s (.ok ((Byte.words text).map toText)) s' ∧
      Cursor.pos s' = (text.rdropWhile isWhitespace).length ∧
      ahead s' = text.rtakeWhile isWhitespace

theorem ArrayCursor.readsWords (G : Grammar N UInt8) (text : List UInt8) :
    ReadsWords G ArrayCursor.remaining text (.ofList text) where
  none_of_blank h := ⟨_, yields_no_words G h, rfl, remaining_between [] text⟩
  all_of_word h := ⟨_, yields_words G h, rfl, remaining_between _ _⟩

/-- What a cursor has in common with the array cursor, it has in reading words. -/
theorem ReadsWords.of_array [Cursor σ UInt8] {G : Grammar N UInt8} {ahead : σ → List UInt8}
    {text : List UInt8} {m : ArrayCursor UInt8} {s : σ}
    (h : ReadsWords G ArrayCursor.remaining text m)
    (hsame : ∀ {x m'}, G.Yields (.sepBy .word .whitespace) m x m' →
      ∃ s', G.Yields (.sepBy .word .whitespace) s x s' ∧ Cursor.pos s' = m'.pos ∧
        ahead s' = m'.remaining) : ReadsWords G ahead text s where
  none_of_blank hblank := by
    obtain ⟨m', hm, hpos, hahead⟩ := h.none_of_blank hblank
    obtain ⟨s', hs, hpos', hahead'⟩ := hsame hm
    exact ⟨s', hs, hpos'.trans hpos, hahead'.trans hahead⟩
  all_of_word hword := by
    obtain ⟨m', hm, hpos, hahead⟩ := h.all_of_word hword
    obtain ⟨s', hs, hpos', hahead'⟩ := hsame hm
    exact ⟨s', hs, hpos'.trans hpos, hahead'.trans hahead⟩

/-- **Word splitting.**  Over any bytes, on an array cursor, a zipper, and an unbounded reader with
any chunk size in range and any source that delivers the bytes: words with whitespace between them
are read without failure.  There are none where the bytes begin with whitespace or are none, and
nothing is consumed; else they are the maximal runs without whitespace, in order, one character per
byte, and the cursor is left right behind the last, with the whitespace at the end still ahead. -/
theorem words_read_up_to_trailing_blank (G : Grammar N UInt8) (D : List UInt8) :
    ReadsWords G ArrayCursor.remaining D (.ofList D) ∧
    ReadsWords G ListCursor.remaining D (.ofList D) ∧
    ∀ {chunkSize : Nat} {source : Source}, 0 < chunkSize →
      chunkSize ≤ ReaderConfig.maxChunkSize → source.Delivers chunkSize D →
      ∃ r, Reader.ofSource source ⟨chunkSize, none⟩ = .ok r ∧
        ReadsWords G Reader.remaining D r := by
  have harray := ArrayCursor.readsWords G D
  have hplace : SamePlace (.ofList D) (ArrayCursor.ofList D) := ⟨rfl, rfl⟩
  refine ⟨harray, harray.of_array hplace.exists_yields, ?_⟩
  intro chunkSize source hpos hmax hsource
  have hvalid : (⟨chunkSize, none⟩ : ReaderConfig).fault? = none :=
    (ReaderConfig.fault?_eq_none_iff _).2 ⟨hpos, hmax, nofun⟩
  obtain ⟨r, hr, hsteady⟩ := Reader.exists_ofSource hsource.steady hvalid
  have hstart := Reader.InStep.start hr
  rw [hsource.delivered_eq] at hstart
  have hstep : Reader.InSteadyStep source ⟨chunkSize, none⟩ (.ofList D) r := ⟨hstart, hsteady⟩
  exact ⟨r, hr, harray.of_array (hstep.exists_yields rfl)⟩

/-- Two words, two bytes at a time, with an interruption and a short answer on the way. -/
theorem two_words_read :
    let G : Grammar (fun _ => Empty) UInt8 := ⟨fun r => nomatch r⟩
    let D : List UInt8 := [97, 98, 32, 9, 200, 10]
    let source := Source.ofBytes D [.upTo 1, .fail ⟨.interrupted, "again"⟩, .upTo 2]
    source.Delivers 2 D ∧ Byte.words D = [[97, 98], [200]] ∧
      ∃ r r', Reader.ofSource source ⟨2, none⟩ = .ok r ∧
        G.Yields (.sepBy .word .whitespace) r (.ok ["ab", "\u00c8"]) r' ∧ r'.pos = 5 ∧
        r'.remaining = [10] := by
  intro G D source
  have hsource : source.Delivers 2 D := Source.delivers_ofBytes (by decide) <| by
    simp [Reply.isInterrupted]
  obtain ⟨-, -, hreader⟩ := words_read_up_to_trailing_blank G D
  obtain ⟨r, hr, hreads⟩ := hreader (by decide) (by decide) hsource
  obtain ⟨r', hyields, hpos, hahead⟩ := hreads.all_of_word ⟨97, rfl, rfl⟩
  exact ⟨hsource, by decide, r, r', hr, hyields, hpos, hahead⟩

end Backtrack
