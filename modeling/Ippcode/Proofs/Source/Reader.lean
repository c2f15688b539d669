import Ippcode.Source.Reader
import Ippcode.Proofs.Analysis.Lines

/-!
# A reader, whatever it is asked for

The steps of a reader come in any order and go on after faults.  What holds all the time is said of
the lines that have been taken, `done`, and of those that are left.

* `countTexts done`    the number of texts among them, which is the count that the reader keeps;
* `Turn left s taken a n`   what one step does: asked for `s`, with the lines `left` still to come,
                       it takes the lines `taken`, answers `a` and has counted up to `n`;
* `exists_takes`       every step is such a turn;
* `exists_done`        the lines taken are the first ones, each taken once;
* `steps_in_order`     all of it, after any steps.
-/

namespace Ippcode.Source

open Text Utf8

/-! ## texts among lines -/

/-- bytes that are a text -/
def IsText (raw : Bytes) : Prop := ∃ t, raw = encode t

theorem isSome_decode?_iff {raw : Bytes} : (decode? raw).isSome = true ↔ IsText raw := by
  rw [Option.isSome_iff_exists]
  exact exists_congr fun _ => decode?_eq_some_iff

instance : DecidablePred IsText := fun _ => decidable_of_iff _ isSome_decode?_iff

def countTexts (ls : List Bytes) : Nat := ls.countP fun l => IsText l

theorem countTexts_append (ls ms : List Bytes) :
    countTexts (ls ++ ms) = countTexts ls + countTexts ms := List.countP_append

theorem countTexts_concat_of_isText (ls : List Bytes) {l : Bytes} (h : IsText l) :
    countTexts (ls ++ [l]) = countTexts ls + 1 := by
  rw [countTexts_append, countTexts, countTexts, List.countP_singleton, if_pos (decide_eq_true h)]

theorem countTexts_concat_of_not_isText (ls : List Bytes) {l : Bytes} (h : ¬ IsText l) :
    countTexts (ls ++ [l]) = countTexts ls := by
  have hl : ¬ decide (IsText l) = true := by rwa [decide_eq_true_iff]
  rw [countTexts_append, countTexts, countTexts, List.countP_singleton, if_neg hl, Nat.add_zero]

theorem countTexts_eq_length {ls : List Bytes} (h : ∀ l ∈ ls, IsText l) :
    countTexts ls = ls.length :=
  List.countP_eq_length.mpr fun l hl => decide_eq_true (h l hl)

theorem Blank.isText {raw : Bytes} (h : Blank raw) : IsText raw := h.imp fun _ ht => ht.1

theorem readAfter_of_not_isText {raw : Bytes} (h : ¬ IsText raw) (n : Nat) :
    readAfter n raw = .error (.unreadable (n + 1) notUtf8) :=
  readAfter_of_not_text (not_exists.mp h) n

/-! ## one step -/

namespace Reader

/-- the answer tells of a line that is no text -/
def Answer.IsUnreadable (a : Answer) : Prop :=
  ∃ n reason, a = .line (.error (.unreadable n reason)) ∨
    a = .header (.error (.unreadable n reason))

/-- the answer when no line is left -/
def Step.atEnd : Step → Answer
  | .nextLine => .line (.ok none)
  | .expectHeader => .header (.error (.missingHeader header))

/-- With the lines `left` still to come a step takes some of them, gives an answer, and has counted
up to `n`. -/
inductive Turn (left : List Bytes) : Step → List Bytes → Answer → Nat → Prop where
  | atEnd (n : Nat) : left = [] → Turn left .nextLine [] (.line (.ok none)) n
  | line {t : Text} {rest : List Bytes} (n : Nat) : left = encode t :: rest →
      Turn left .nextLine [encode t] (.line (.ok (some (chomp t)))) n
  | unreadable {l : Bytes} {rest : List Bytes} (n : Nat) : left = l :: rest → ¬ IsText l →
      Turn left .nextLine [l] (.line (.error (.unreadable (n + 1) notUtf8))) n
  | noCode (n : Nat) : (∀ l ∈ left, Blank l) →
      Turn left .expectHeader left (.header (.error (.missingHeader header))) n
  | header {blanks rest : List Bytes} {t : Text} (n : Nat) : left = blanks ++ encode t :: rest →
      (∀ l ∈ blanks, Blank l) → (code t).sameUpToCase header = true →
      Turn left .expectHeader (blanks ++ [encode t]) (.header (.ok ())) n
  | wrongHeader {blanks rest : List Bytes} {t : Text} (n : Nat) :
      left = blanks ++ encode t :: rest → (∀ l ∈ blanks, Blank l) → code t ≠ [] →
      (code t).sameUpToCase header = false →
      Turn left .expectHeader (blanks ++ [encode t])
        (.header (.error (.wrongHeader n header (code t)))) n
  | unreadableHeader {blanks rest : List Bytes} {l : Bytes} (n : Nat) :
      left = blanks ++ l :: rest → (∀ l ∈ blanks, Blank l) → ¬ IsText l →
      Turn left .expectHeader (blanks ++ [l]) (.header (.error (.unreadable (n + 1) notUtf8))) n

section

variable {left taken : List Bytes} {s : Step} {a : Answer} {n : Nat}

/-- A line without code in front is taken as well. -/
theorem Turn.blank {l : Bytes} (hl : Blank l) (h : Turn left .expectHeader taken a n) :
    Turn (l :: left) .expectHeader (l :: taken) a n := by
  cases h with
  | noCode _ hb => exact .noCode n (List.forall_mem_cons.mpr ⟨hl, hb⟩)
  | header _ hleft hb hh =>
    rw [hleft]
    exact .header n rfl (List.forall_mem_cons.mpr ⟨hl, hb⟩) hh
  | wrongHeader _ hleft hb hc hh =>
    rw [hleft]
    exact .wrongHeader n rfl (List.forall_mem_cons.mpr ⟨hl, hb⟩) hc hh
  | unreadableHeader _ hleft hb hu =>
    rw [hleft]
    exact .unreadableHeader n rfl (List.forall_mem_cons.mpr ⟨hl, hb⟩) hu

/-- Where the answer does not say otherwise, all lines taken are texts. -/
theorem Turn.isText (h : Turn left s taken a n) (ha : ¬ a.IsUnreadable) :
    ∀ l ∈ taken, IsText l := by
  have hcons : ∀ {blanks : List Bytes} {t : Text}, (∀ l ∈ blanks, Blank l) →
      ∀ l ∈ blanks ++ [encode t], IsText l := by
    intro blanks t hb
    exact List.forall_mem_append.mpr
      ⟨fun l hl => (hb l hl).isText, List.forall_mem_singleton.mpr ⟨t, rfl⟩⟩
  cases h with
  | atEnd => simp
  | line => exact List.forall_mem_singleton.mpr ⟨_, rfl⟩
  | unreadable => exact absurd ⟨_, _, .inl rfl⟩ ha
  | noCode _ hb => exact fun l hl => (hb l hl).isText
  | header _ _ hb => exact hcons hb
  | wrongHeader _ _ hb => exact hcons hb
  | unreadableHeader => exact absurd ⟨_, _, .inr rfl⟩ ha

end

/-- the step `s` of `r` is a turn that takes the lines `taken` after the lines `done` -/
def Takes (r : Reader) (s : Step) (done taken : List Bytes) : Prop :=
  r.pending = taken ++ (r.perform s).2.pending ∧
    (r.perform s).2.line = countTexts (done ++ taken) ∧
      Turn r.pending s taken (r.perform s).1 (r.perform s).2.line

theorem exists_takes_nextLine {r : Reader} {done : List Bytes} (h : r.line = countTexts done) :
    ∃ taken, r.Takes .nextLine done taken := by
  obtain ⟨left, n⟩ := r
  obtain rfl : n = countTexts done := h
  cases left with
  | nil => exact ⟨[], rfl, by rw [List.append_nil]; rfl, .atEnd _ rfl⟩
  | cons l rest =>
    refine ⟨[l], ?_⟩
    by_cases hl : IsText l
    · obtain ⟨t, rfl⟩ := hl
      have hnext := nextLine_cons_of_ok (readAfter_encode (countTexts done) t) rest
      unfold Takes perform
      rw [hnext]
      exact ⟨rfl, (countTexts_concat_of_isText done ⟨t, rfl⟩).symm, .line _ rfl⟩
    · have hnext := nextLine_cons_of_error (readAfter_of_not_isText hl (countTexts done)) rest
      unfold Takes perform
      rw [hnext]
      exact ⟨rfl, (countTexts_concat_of_not_isText done hl).symm, .unreadable _ rfl hl⟩

/-- the search for the header, after the lines `done` -/
theorem exists_takes_expectHeader (left done : List Bytes) :
    ∃ taken, Reader.Takes ⟨left, countTexts done⟩ .expectHeader done taken := by
  induction left generalizing done with
  | nil => exact ⟨[], rfl, by rw [List.append_nil]; rfl, .noCode _ (by simp)⟩
  | cons l rest ih =>
    unfold Takes perform expectHeader seekHeader
    by_cases hl : IsText l
    · obtain ⟨t, rfl⟩ := hl
      have hcount := countTexts_concat_of_isText done ⟨t, rfl⟩
      rw [readAfter_encode]
      simp only [code_chomp]
      by_cases hc : code t = []
      · -- a line without code: the search goes on after it
        rw [if_pos hc, ← hcount]
        obtain ⟨taken, hpending, hline, hturn⟩ := ih (done ++ [encode t])
        rw [List.append_assoc] at hline
        exact ⟨encode t :: taken, congrArg _ hpending, hline, hturn.blank ⟨t, rfl, hc⟩⟩
      · rw [if_neg hc, ← hcount]
        refine ⟨[encode t], rfl, rfl, ?_⟩
        unfold checkHeader
        cases hh : (code t).sameUpToCase Source.header with
        | true => exact @Turn.header _ [] rest t _ rfl (by simp) hh
        | false => exact @Turn.wrongHeader _ [] rest t _ rfl (by simp) hc hh
    · rw [readAfter_of_not_isText hl]
      have hcount := countTexts_concat_of_not_isText done hl
      exact ⟨[l], rfl, hcount.symm, @Turn.unreadableHeader _ [] rest l _ rfl (by simp) hl⟩

/-- **Every step takes its lines from the front of those that are left, and counts the texts.** -/
theorem exists_takes {r : Reader} {done : List Bytes} (h : r.line = countTexts done) (s : Step) :
    ∃ taken, r.Takes s done taken := by
  cases s with
  | nextLine => exact exists_takes_nextLine h
  | expectHeader =>
    obtain ⟨left, n⟩ := r
    obtain rfl : n = countTexts done := h
    exact exists_takes_expectHeader left done

/-! ## many steps -/

/-- Any steps take the lines of a source from its beginning on; as long as none of them was no
text, the reader has counted them all. -/
theorem exists_done (bs : Bytes) (steps : List Step) :
    ∃ done, AreLines bs (done ++ ((ofBytes bs).after steps).pending) ∧
      ((ofBytes bs).after steps).line = countTexts done ∧
      ((∀ a ∈ (ofBytes bs).answers steps, ¬ a.IsUnreadable) → ∀ l ∈ done, IsText l) := by
  induction steps using List.reverseRecOn with
  | nil => exact ⟨[], areLines_breakLines bs, rfl, by simp⟩
  | append_singleton steps s ih =>
    obtain ⟨done, hlines, hline, htexts⟩ := ih
    obtain ⟨taken, hpending, hline', hturn⟩ := exists_takes hline s
    rw [after_concat, answers_concat]
    refine ⟨done ++ taken, ?_, hline', ?_⟩
    · rwa [List.append_assoc, ← hpending]
    · intro ha
      rw [List.forall_mem_append, List.forall_mem_singleton] at ha
      exact List.forall_mem_append.mpr ⟨htexts ha.1, hturn.isText ha.2⟩

/-- At the end of the input nothing changes any more. -/
theorem perform_of_pending_eq_nil {r : Reader} (h : r.pending = []) (s : Step) :
    r.perform s = (s.atEnd, r) := by
  obtain ⟨left, n⟩ := r
  obtain rfl : left = [] := h
  cases s <;> rfl

theorem after_answers_of_pending_eq_nil {r : Reader} (h : r.pending = []) (steps : List Step) :
    r.after steps = r ∧ r.answers steps = steps.map Step.atEnd := by
  induction steps with
  | nil => exact ⟨rfl, rfl⟩
  | cons s steps ih =>
    rw [after_cons, answers_cons, perform_of_pending_eq_nil h]
    exact ⟨ih.1, by rw [ih.2]; rfl⟩

/-- **After any steps a reader goes on where they have left it.**  Its count is that of the texts
among the lines taken, which is the number of the last line as long as all were texts, and the end
of the input stays the end. -/
theorem steps_in_order (bs : Bytes) (steps : List Step) :
    let r := (ofBytes bs).after steps
    ∃ done, AreLines bs (done ++ r.pending) ∧ r.line = countTexts done ∧
      ((∀ a ∈ (ofBytes bs).answers steps, ¬ a.IsUnreadable) → r.line = done.length) ∧
      (∀ s, ∃ taken, r.Takes s done taken) ∧
      (r.pending = [] → ∀ more, r.after more = r ∧ r.answers more = more.map Step.atEnd) := by
  intro r
  obtain ⟨done, hlines, hline, htexts⟩ := exists_done bs steps
  refine ⟨done, hlines, hline, ?_, exists_takes hline, after_answers_of_pending_eq_nil⟩
  intro ha
  rw [← countTexts_eq_length (htexts ha)]
  exact hline

/-- the header, the line after it, and then the end of the input however often it is asked for -/
theorem steps_in_order_header :
    let bs := encode "# a\n.ippcode22\r\nBREAK".toList
    let r := (ofBytes bs).after [.expectHeader, .nextLine]
    r.pending = [] ∧ r.line = 3 ∧ r.answers [.nextLine, .nextLine, .expectHeader]
      = [.line (.ok none), .line (.ok none), .header (.error (.missingHeader header))] := by
  intro bs r
  have hpending : r.pending = [] := by rfl
  have hanswers : (ofBytes bs).answers [.expectHeader, .nextLine]
      = [.header (.ok ()), .line (.ok (some "BREAK".toList))] := by rfl
  have hreadable : ∀ a ∈ (ofBytes bs).answers [.expectHeader, .nextLine], ¬ a.IsUnreadable := by
    rw [hanswers]
    simp [Answer.IsUnreadable]
  obtain ⟨done, hlines, -, hnumber, -, hend⟩ := steps_in_order bs [.expectHeader, .nextLine]
  have hdone : done = breakLines bs := by
    rw [← areLines_iff]
    rwa [hpending, List.append_nil] at hlines
  refine ⟨hpending, ?_, (hend hpending _).2⟩
  rw [hnumber hreadable, hdone]
  rfl

end Reader

end Ippcode.Source
