import Ippcode.Proofs.Analysis.Reading
import Ippcode.Proofs.Analysis.Run
import Ippcode.Proofs.Source.TextLines

/-!
# Line by line, or as a whole

A source is read one line at a time, and each line is judged as text by itself.
`reading_agrees` says that this comes to the same as judging the source as a whole: in a text no
line is unreadable and the lines read are those of the text; in a source that is no text the first
unreadable line is the one in which the first ill-formed sequence starts.

* `Reader.answers_texts`   lines that are texts, read one by one;
* `answers_isReadable`     in a text no step, whichever it is, meets an unreadable line.
-/

namespace Ippcode

open Source Utf8 Source.Reader

/-! ## the reader -/

namespace Source.Reader

/-- Lines that are texts are read one by one, and then the reader goes on. -/
theorem answers_texts (ts : List Text) (rest : List Bytes) (n : Nat) (steps : List Step) :
    answers ⟨ts.map encode ++ rest, n⟩ (List.replicate ts.length .nextLine ++ steps)
      = ts.map (fun t => .line (.ok (some (chomp t)))) ++ answers ⟨rest, n + ts.length⟩ steps := by
  induction ts generalizing n with
  | nil => rfl
  | cons t ts ih =>
    have hnext := nextLine_cons_of_ok (readAfter_encode n t) (ts.map encode ++ rest)
    rw [List.length_cons, List.replicate_succ, List.cons_append, answers_cons, List.map_cons,
      List.map_cons, List.cons_append, List.cons_append, perform, hnext, ih, Nat.add_assoc,
      Nat.add_comm 1]

/-- A step that finds only texts gives no fault of an unreadable line. -/
theorem Turn.isReadable {left taken : List Bytes} {s : Step} {a : Answer} {n : Nat}
    (h : Turn left s taken a n) (hleft : ∀ l ∈ left, IsText l) : ¬ a.IsUnreadable := by
  cases h with
  | unreadable _ hl hu =>
    rw [hl] at hleft
    exact absurd (hleft _ (List.mem_cons_self ..)) hu
  | unreadableHeader _ hl _ hu =>
    rw [hl] at hleft
    exact absurd (hleft _ (by simp)) hu
  | _ => simp [Answer.IsUnreadable]

theorem answers_isReadable {bs : Bytes} (h : IsText bs) (steps : List Step) :
    ∀ a ∈ (ofBytes bs).answers steps, ¬ a.IsUnreadable := by
  induction steps using List.reverseRecOn with
  | nil => simp [answers_nil]
  | append_singleton steps s ih =>
    obtain ⟨done, hlines, hline, -⟩ := exists_done bs steps
    obtain ⟨taken, -, -, hturn⟩ := exists_takes hline s
    have hall := (isText_iff_forall_lines hlines).mp h
    rw [List.forall_mem_append] at hall
    rw [answers_concat]
    exact List.forall_mem_append.mpr ⟨ih, List.forall_mem_singleton.mpr (hturn.isReadable hall.2)⟩

end Source.Reader

/-! ## the analysis -/

/-- In a text no reader is led to an unreadable line, and so an analysis is not either. -/
theorem parse_ne_unreadable {bs : Bytes} (h : IsText bs) (n : Nat) (reason : Text) :
    parse bs ≠ .error (.unreadable n reason) := by
  intro hp
  obtain ⟨steps, a, ha, hu⟩ := exists_isUnreadable hp
  exact answers_isReadable h steps a ha hu

theorem Source.Passes.isText {ls : List Bytes} {o : Option Said} (h : Passes ls o) :
    ∀ l ∈ ls, IsText l := by
  induction h with
  | start => simp
  | blank _ hl ih =>
    exact List.forall_mem_append.mpr ⟨ih, List.forall_mem_singleton.mpr hl.isText⟩
  | header _ hl ih =>
    exact List.forall_mem_append.mpr
      ⟨ih, List.forall_mem_singleton.mpr (hl.imp fun _ ht => ht.1)⟩
  | statement _ hl ih =>
    exact List.forall_mem_append.mpr
      ⟨ih, List.forall_mem_singleton.mpr (hl.imp fun _ ht => ht.1)⟩

/-- What is accepted is a text. -/
theorem isText_of_parse {bs : Bytes} {p : Program} (h : parse bs = .ok p) : IsText bs := by
  obtain ⟨xs, hp, -⟩ := parse_eq_ok_iff.mp h
  exact (isText_iff_forall_lines (areLines_breakLines bs)).mpr hp.isText

/-- **Reading line by line agrees with reading the source as a whole.**  A text is never found
unreadable, by whatever steps, and its lines are read one by one, up to the end.  Bytes that are no
text are not accepted; they cease to be one at one place, and it is the line with that place which
is found unreadable, the lines before it being read. -/
theorem reading_agrees (bs : Bytes) :
    (∀ t, bs = encode t →
      (∀ steps, ∀ a ∈ (ofBytes bs).answers steps, ¬ a.IsUnreadable) ∧
      (∀ n reason, parse bs ≠ .error (.unreadable n reason)) ∧
      (ofBytes bs).answers (List.replicate (textLines t).length .nextLine ++ [.nextLine])
        = (textLines t).map (fun l => .line (.ok (some l))) ++ [.line (.ok none)]) ∧
    ((∀ t, bs ≠ encode t) →
      (∀ p, parse bs ≠ .ok p) ∧
      ∃ u, IllFormedAfter bs u ∧ (∀ v, IllFormedAfter bs v → v = u) ∧
        ∃ (before : List Text) (l : Bytes) (after : List Bytes) (v : Text) (x : Bytes),
          AreLines bs (before.map encode ++ l :: after) ∧
          u = before.flatten ++ v ∧ l = encode v ++ x ∧ x ≠ [] ∧
          (ofBytes bs).answers (List.replicate before.length .nextLine ++ [.nextLine])
            = before.map (fun t => .line (.ok (some (chomp t)))) ++
              [.line (.error (.unreadable (before.length + 1) notUtf8))]) := by
  refine ⟨?_, fun h => ⟨?_, ?_⟩⟩
  · rintro t rfl
    refine ⟨answers_isReadable ⟨t, rfl⟩, parse_ne_unreadable ⟨t, rfl⟩, ?_⟩
    obtain ⟨ts, hlines, htexts⟩ := exists_lines t
    have hanswers := answers_texts ts [] 0 [.nextLine]
    rw [← htexts, List.length_map, List.map_map, ofBytes, ← areLines_iff.mp hlines]
    rw [List.append_nil] at hanswers
    exact hanswers
  · intro p hp
    obtain ⟨t, ht⟩ := isText_of_parse hp
    exact h t ht
  · obtain ⟨u, hu⟩ := exists_illFormedAfter h
    refine ⟨u, hu, fun v hv => hu.unique hv, ?_⟩
    obtain ⟨before, l, after, v, x, hls, hl, hplace, hline, hx⟩ :=
      exists_unreadable_line (areLines_breakLines bs) hu
    refine ⟨before, l, after, v, x, hls ▸ areLines_breakLines bs, hplace, hline, hx, ?_⟩
    have hnext := nextLine_cons_of_error (readAfter_of_not_isText hl (0 + before.length)) after
    rw [ofBytes, hls, answers_texts, answers_cons, answers_nil, perform, hnext, Nat.zero_add]

-- a sequence of three bytes that is cut short by the line end
example : (ofBytes [0x61, 0x0D, 0x0A, 0xE2, 0x82, 0x0A]).answers [.nextLine, .nextLine]
    = [.line (.ok (some ['a'])), .line (.error (.unreadable 2 notUtf8))] := by rfl

end Ippcode
