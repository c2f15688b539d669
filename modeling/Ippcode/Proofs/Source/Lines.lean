import Ippcode.Source.Line
import Ippcode.Proofs.Text.Fields
import Ippcode.Proofs.Utf8.Exact

/-!
# Physical lines

What the lines of a byte string are, said without cutting it (`AreLines`), and that there is one
such list, the one that `breakLines` gives (`areLines_iff`).

* `AtBoundary a`              a source that goes on after `a` goes on with a new line, for `a` is
                              empty or ends with a line feed: the lines of `a ++ b` are those of
                              `a` and those of `b` (`breakLines_append`), and `a` has as many lines
                              as line feeds (`length_breakLines`);
* `lineFeed_mem_encode_iff`   a line feed in the bytes of a text is a line feed in the text;
* `areLines_encode`           the lines of a text written line by line;
* `readAfter_encode`          a line is read as its text, when its bytes are UTF-8;
* `exists_eq_chomp_append`    a line end is made of separators.
-/

namespace Ippcode.Source

/-! ## lines, without cutting -/

/-- `ls` are the lines of a byte string: each one ends with its only line feed, but the last one
may lack it; no line is empty. -/
inductive AreLines : Bytes → List Bytes → Prop where
  | nil : AreLines [] []
  | unended {l : Bytes} : l ≠ [] → lineFeed ∉ l → AreLines l [l]
  | ended {l bs : Bytes} {ls : List Bytes} : lineFeed ∉ l → AreLines bs ls →
      AreLines (l ++ lineFeed :: bs) ((l ++ [lineFeed]) :: ls)

theorem AreLines.cons_byte {bs : Bytes} {ls : List Bytes} (b : UInt8) (h : AreLines bs ls) :
    AreLines (b :: bs) (consByte b ls) := by
  by_cases hb : b = lineFeed
  · subst hb
    rw [consByte_lineFeed]
    exact .ended (l := []) (by simp) h
  · cases h with
    | nil => exact .unended (by simp) (by simpa using Ne.symm hb)
    | @unended l hl hn =>
      rw [consByte, if_neg hb]
      exact .unended (by simp) (by simp [hn, Ne.symm hb])
    | @ended l bs ls hn h =>
      rw [consByte, if_neg hb]
      exact .ended (l := b :: l) (by simp [hn, Ne.symm hb]) h

theorem areLines_breakLines (bs : Bytes) : AreLines bs (breakLines bs) := by
  induction bs with
  | nil => exact .nil
  | cons b bs ih => exact ih.cons_byte b

theorem breakLines_of_no_lineFeed {l : Bytes} (hl : l ≠ []) (hn : lineFeed ∉ l) :
    breakLines l = [l] := by
  induction l with
  | nil => exact absurd rfl hl
  | cons b l ih =>
    rw [List.mem_cons, not_or] at hn
    cases l with
    | nil => rfl
    | cons c l =>
      rw [breakLines_cons, ih (by simp) hn.2, consByte, if_neg (Ne.symm hn.1)]

theorem breakLines_line {l : Bytes} (hn : lineFeed ∉ l) (bs : Bytes) :
    breakLines (l ++ lineFeed :: bs) = (l ++ [lineFeed]) :: breakLines bs := by
  induction l with
  | nil => exact consByte_lineFeed _
  | cons b l ih =>
    rw [List.mem_cons, not_or] at hn
    rw [List.cons_append, breakLines_cons, ih hn.2, consByte, if_neg (Ne.symm hn.1)]
    rfl

/-- A byte string has one list of lines. -/
theorem areLines_iff {bs : Bytes} {ls : List Bytes} : AreLines bs ls ↔ ls = breakLines bs := by
  constructor
  · intro h
    induction h with
    | nil => rfl
    | unended hl hn => exact (breakLines_of_no_lineFeed hl hn).symm
    | ended hn _ ih => rw [breakLines_line hn, ih]
  · rintro rfl
    exact areLines_breakLines bs

/-! ## line boundaries -/

/-- the end of `a` is the beginning of a line -/
def AtBoundary (a : Bytes) : Prop := a = [] ∨ a.getLast? = some lineFeed

instance (a : Bytes) : Decidable (AtBoundary a) :=
  inferInstanceAs (Decidable (a = [] ∨ a.getLast? = some lineFeed))

theorem breakLines_append {a : Bytes} (h : AtBoundary a) (b : Bytes) :
    breakLines (a ++ b) = breakLines a ++ breakLines b := by
  rcases h with rfl | h
  · rfl
  · obtain ⟨u, rfl⟩ := List.getLast?_eq_some_iff.mp h
    rw [List.append_assoc]
    exact breakLines_append_lineFeed u b

theorem AreLines.length_eq {a : Bytes} {ls : List Bytes} (h : AreLines a ls)
    (hb : AtBoundary a) : ls.length = a.count lineFeed := by
  induction h with
  | nil => rfl
  | @unended l hl hn =>
    rcases hb with rfl | hlast
    · exact absurd rfl hl
    · exact absurd (List.mem_of_getLast? hlast) hn
  | @ended l bs ls hn _ ih =>
    have hbs : AtBoundary bs := by
      rcases hb with hnil | hlast
      · simp at hnil
      · cases bs with
        | nil => exact .inl rfl
        | cons c bs =>
          right
          rw [List.getLast?_append, List.getLast?_cons_cons] at hlast
          rwa [List.getLast?_cons, Option.some_or, ← List.getLast?_cons] at hlast
    rw [List.length_cons, ih hbs, List.count_append, List.count_cons_self,
      List.count_eq_zero_of_not_mem hn, Nat.zero_add]

theorem length_breakLines {a : Bytes} (h : AtBoundary a) :
    (breakLines a).length = a.count lineFeed :=
  (areLines_breakLines a).length_eq h

/-! ## the lines of a text -/

theorem lineFeed_mem_encodeChar_iff {c : Char} :
    lineFeed ∈ String.utf8EncodeChar c ↔ c = '\n' := by
  constructor
  · intro hm
    obtain ⟨bs, h⟩ := Utf8.exists_form c
    rw [Utf8.encodeChar_of_form h] at hm
    exact (h.eq_of_mem hm (by decide)).2
  · rintro rfl
    decide

theorem lineFeed_mem_encode_iff {t : Text} : lineFeed ∈ Utf8.encode t ↔ '\n' ∈ t := by
  simp only [Utf8.encode, List.mem_flatMap, lineFeed_mem_encodeChar_iff, exists_eq_right]

theorem encode_lineFeed : Utf8.encode ['\n'] = [lineFeed] := by decide

/-- a text that is written line by line -/
def ofLines (ts : List Text) : Text := ts.flatMap fun t => t ++ ['\n']

theorem areLines_encode_append {ts : List Text} (h : ∀ t ∈ ts, '\n' ∉ t) {bs : Bytes}
    {ls : List Bytes} (hbs : AreLines bs ls) : AreLines (Utf8.encode (ofLines ts) ++ bs)
      ((ts.map fun t => Utf8.encode (t ++ ['\n'])) ++ ls) := by
  induction ts with
  | nil => exact hbs
  | cons t ts ih =>
    rw [ofLines, List.flatMap_cons, Utf8.encode_append, Utf8.encode_append, encode_lineFeed,
      List.append_assoc, List.append_assoc, List.map_cons, Utf8.encode_append, encode_lineFeed]
    refine .ended ?_ (ih fun u hu => h u (List.mem_cons_of_mem _ hu))
    rw [lineFeed_mem_encode_iff]
    exact h t (List.mem_cons_self ..)

theorem areLines_encode {ts : List Text} (h : ∀ t ∈ ts, '\n' ∉ t) :
    AreLines (Utf8.encode (ofLines ts)) (ts.map fun t => Utf8.encode (t ++ ['\n'])) := by
  have hlines := areLines_encode_append h .nil
  rwa [List.append_nil, List.append_nil] at hlines

/-! ## the text of a line -/

theorem lineText?_encode (t : Text) : lineText? (Utf8.encode t) = some (chomp t) := by
  rw [lineText?, Utf8.decode?_encode, Option.map_some]

theorem lineText?_eq_none_iff {raw : Bytes} : lineText? raw = none ↔ ∀ t, raw ≠ Utf8.encode t := by
  rw [lineText?, Option.map_eq_none_iff, Utf8.decode?_eq_none_iff]

theorem readAfter_encode (n : Nat) (t : Text) : readAfter n (Utf8.encode t) = .ok (chomp t) := by
  rw [readAfter, lineText?_encode]

theorem readAfter_of_not_text {raw : Bytes} (h : ∀ t, raw ≠ Utf8.encode t) (n : Nat) :
    readAfter n raw = .error (.unreadable (n + 1) notUtf8) := by
  rw [readAfter, lineText?_eq_none_iff.mpr h]

/-- a line end is one LF, maybe with one CR before it -/
theorem exists_eq_chomp_append (t : Text) :
    ∃ e, t = chomp t ++ e ∧ ∀ c ∈ e, Text.isSeparator c = true := by
  unfold chomp
  split
  · next h =>
    obtain ⟨u, rfl⟩ := List.getLast?_eq_some_iff.mp h
    rw [List.dropLast_concat]
    split
    · next h' =>
      obtain ⟨v, rfl⟩ := List.getLast?_eq_some_iff.mp h'
      rw [List.dropLast_concat]
      exact ⟨['\r', '\n'], by simp, by decide⟩
    · exact ⟨['\n'], rfl, by decide⟩
  · exact ⟨[], by simp, by simp⟩

end Ippcode.Source
