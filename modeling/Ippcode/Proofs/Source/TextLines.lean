import Ippcode.Proofs.Source.Reader
import Ippcode.Proofs.Utf8.Cut

/-!
# The lines of a text, and of bytes that are none

A source is cut into lines before it is read as text.  Nothing is lost by that:

* `textLines t`               the lines of a text, found by cutting the text;
* `exists_lines`              they are what is on the lines of its bytes;
* `isText_iff_forall_lines`   bytes are a text when all their lines are;
* `exists_unreadable_line`    in bytes that are no text, the first line that is none is the one in
                              which the first ill-formed sequence starts.
-/

namespace Ippcode.Source

open Text Utf8

/-! ## the lines of a text -/

/-- a text without a carriage return at its end -/
def withoutReturn (t : Text) : Text := if t.getLast? = some '\r' then t.dropLast else t

/-- The pieces of a text between its line feeds.  A carriage return right before a line feed goes
with it, and where nothing follows the last line feed there is no line. -/
def textLines (t : Text) : List Text :=
  (t.splitOn '\n').dropLast.map withoutReturn ++
    (t.splitOn '\n').getLast?.toList.filter (!·.isEmpty)

theorem chomp_append_lineFeed (t : Text) : chomp (t ++ ['\n']) = withoutReturn t := by
  rw [chomp, List.getLast?_concat, if_pos rfl, List.dropLast_concat, withoutReturn]

/-- every text is lines and what follows the last line feed -/
theorem exists_eq_ofLines_append (t : Text) :
    ∃ ts q, t = ofLines ts ++ q ∧ (∀ u ∈ ts, '\n' ∉ u) ∧ '\n' ∉ q := by
  induction t with
  | nil => exact ⟨[], [], rfl, by simp, by simp⟩
  | cons c t ih =>
    obtain ⟨ts, q, rfl, hts, hq⟩ := ih
    by_cases hc : c = '\n'
    · exact ⟨[] :: ts, q, by rw [hc]; rfl, List.forall_mem_cons.mpr ⟨by simp, hts⟩, hq⟩
    · -- the character goes to the line in front
      cases ts with
      | nil => exact ⟨[], c :: q, rfl, hts, by simp [Ne.symm hc, hq]⟩
      | cons u ts =>
        rw [List.forall_mem_cons] at hts
        refine ⟨(c :: u) :: ts, q, rfl, List.forall_mem_cons.mpr ⟨?_, hts.2⟩, hq⟩
        simp [Ne.symm hc, hts.1]

theorem splitOn_ofLines_append {ts : List Text} {q : Text} (h : ∀ u ∈ ts, '\n' ∉ u)
    (hq : '\n' ∉ q) : (ofLines ts ++ q).splitOn '\n' = ts ++ [q] := by
  induction ts with
  | nil => exact List.splitOn_eq_singleton hq
  | cons u ts ih =>
    rw [List.forall_mem_cons] at h
    rw [ofLines, List.flatMap_cons, List.append_assoc, List.append_assoc, List.singleton_append,
      List.splitOn_append_cons_self, List.splitOn_eq_singleton h.1]
    exact congrArg (u :: ·) (ih h.2)

/-- **The lines of a text are what is on the lines of its bytes.** -/
theorem exists_lines (t : Text) :
    ∃ ts : List Text, AreLines (encode t) (ts.map encode) ∧ ts.map chomp = textLines t := by
  obtain ⟨us, q, rfl, hus, hq⟩ := exists_eq_ofLines_append t
  rw [textLines, splitOn_ofLines_append hus hq, List.dropLast_concat, List.getLast?_concat,
    encode_append]
  have hchomp : (us.map fun u => u ++ ['\n']).map chomp = us.map withoutReturn := by
    rw [List.map_map]
    exact List.map_congr_left fun u _ => chomp_append_lineFeed u
  by_cases hnil : q = []
  · refine ⟨us.map fun u => u ++ ['\n'], ?_, ?_⟩
    · rw [hnil, encode_nil, List.append_nil, List.map_map]
      exact areLines_encode hus
    · rw [hchomp, hnil]
      simp
  · refine ⟨(us.map fun u => u ++ ['\n']) ++ [q], ?_, ?_⟩
    · rw [List.map_append, List.map_map]
      refine areLines_encode_append hus (.unended ?_ ?_)
      · rwa [Ne, encode_eq_nil_iff]
      · rwa [lineFeed_mem_encode_iff]
    · have hlast : q.getLast? ≠ some '\n' := fun h => hq (List.mem_of_getLast? h)
      rw [List.map_append, hchomp, List.map_singleton, chomp_of_unended hlast]
      simp [hnil]

/-! ## lines that are texts -/

theorem isText_append {a b : Bytes} (ha : IsText a) (hb : IsText b) : IsText (a ++ b) := by
  obtain ⟨u, rfl⟩ := ha
  obtain ⟨v, rfl⟩ := hb
  exact ⟨u ++ v, (encode_append u v).symm⟩

/-- A text is a text on each side of a line end. -/
theorem isText_of_isText_append {l bs : Bytes} (h : IsText (l ++ lineFeed :: bs)) :
    IsText (l ++ [lineFeed]) ∧ IsText bs := by
  obtain ⟨t, ht⟩ := h
  obtain ⟨u, v, rfl, rfl, rfl⟩ := exists_cut (by decide) ht
  exact ⟨isText_append ⟨u, rfl⟩ ⟨['\n'], encode_lineFeed.symm⟩, ⟨v, rfl⟩⟩

/-- **Bytes are a text exactly when all their lines are.** -/
theorem isText_iff_forall_lines {bs : Bytes} {ls : List Bytes} (h : AreLines bs ls) :
    IsText bs ↔ ∀ l ∈ ls, IsText l := by
  induction h with
  | nil => exact iff_of_true ⟨[], rfl⟩ (by simp)
  | unended => rw [List.forall_mem_singleton]
  | @ended l bs ls _ _ ih =>
    rw [List.forall_mem_cons, ← ih]
    refine ⟨isText_of_isText_append, ?_⟩
    intro h
    have hboth := isText_append h.1 h.2
    rwa [List.append_assoc] at hboth

/-! ## the first line that is no text -/

/-- **The first ill-formed sequence starts in the first line that is no text.**  The lines before it
are texts; after them the text that can be read goes on for a part of the line, and not to its
end. -/
theorem exists_unreadable_line {bs : Bytes} {ls : List Bytes} {u : Text} (h : AreLines bs ls)
    (hu : IllFormedAfter bs u) : ∃ (before : List Text) (l : Bytes) (after : List Bytes)
      (v : Text) (x : Bytes), ls = before.map encode ++ l :: after ∧ ¬ IsText l ∧
        u = before.flatten ++ v ∧ l = encode v ++ x ∧ x ≠ [] := by
  induction h generalizing u with
  | nil => exact absurd rfl (hu.not_text [])
  | @unended l hl hn =>
    have hnot : ¬ IsText l := not_exists.mpr hu.not_text
    obtain ⟨bad, hbs, hbad⟩ := hu
    exact ⟨[], l, [], u, bad, rfl, hnot, rfl, hbs, hbad.1⟩
  | @ended l bs ls hn hls ih =>
    by_cases hl : IsText (l ++ [lineFeed])
    · -- a line that is a text comes before the place
      obtain ⟨w, hw⟩ := hl
      rw [List.append_cons, hw] at hu
      obtain ⟨v, rfl, hv⟩ := hu.of_append
      obtain ⟨before, k, after, v', x, rfl, hk, rfl, hx, hne⟩ := ih hv
      refine ⟨w :: before, k, after, v', x, ?_, hk, ?_, hx, hne⟩
      · rw [hw]
        rfl
      · rw [List.flatten_cons, List.append_assoc]
    · obtain ⟨bad, hbs, hbad⟩ := hu
      rw [List.append_cons] at hbs
      refine ⟨[], l ++ [lineFeed], ls, u, ?_⟩
      rcases List.append_eq_append_iff.mp hbs with ⟨x, hx, -⟩ | ⟨x, hx, -⟩
      · -- what can be read does not reach beyond a line that is no text
        rw [List.append_assoc, List.singleton_append] at hx
        exact absurd (isText_of_isText_append ⟨u, hx.symm⟩).1 hl
      · refine ⟨x, rfl, hl, rfl, hx, ?_⟩
        rintro rfl
        rw [List.append_nil] at hx
        exact hl ⟨u, hx⟩

end Ippcode.Source
