import Ippcode.Proofs.Source.Lines
import Ippcode.Proofs.Text.Split

/-!
# The code on a line, and the words in it

* `isTrimmed_code`, `commentMark_notMem_code`   what code looks like, and `code_eq_self`: code is
                                                its own code;
* `code_chomp`          the code on a line is the same with and without its line end;
* `splits_of_ofLine?`   the words of a statement stand in the code of its line;
* `ofLine?_iff_fields`  as long as none of them holds a separator, they are all its fields.
-/

namespace Ippcode.Source

open Text

theorem isTrimmed_code (t : Text) : IsTrimmed isSeparator (code t) := isTrimmed_trim _

theorem mem_of_mem_trim {p : Char → Bool} {t : Text} {c : Char} (h : c ∈ trim p t) : c ∈ t := by
  have h1 := (List.dropWhile_sublist p).subset (List.mem_reverse.mp h)
  exact (List.dropWhile_sublist p).subset (List.mem_reverse.mp h1)

theorem commentMark_notMem_code (t : Text) : commentMark ∉ code t := by
  intro h
  have hall := List.all_eq_true.mp (List.all_takeWhile (p := (· ≠ commentMark)) (l := t))
    commentMark (mem_of_mem_trim h)
  simp at hall

theorem ne_commentMark_of_notMem {t : Text} (h : commentMark ∉ t) :
    ∀ c ∈ t, decide (c ≠ commentMark) = true := by
  intro c hc
  rw [decide_eq_true_iff]
  rintro rfl
  exact h hc

theorem takeWhile_append {t : Text} (h : commentMark ∉ t) (u : Text) :
    (t ++ u).takeWhile (· ≠ commentMark) = t ++ u.takeWhile (· ≠ commentMark) :=
  List.takeWhile_append_of_pos (ne_commentMark_of_notMem h)

theorem takeWhile_eq_self {t : Text} (h : commentMark ∉ t) :
    t.takeWhile (· ≠ commentMark) = t := by
  have ht := takeWhile_append h []
  rwa [List.append_nil, List.takeWhile_nil, List.append_nil] at ht

theorem code_eq_self {t : Text} (h : IsTrimmed isSeparator t) (hn : commentMark ∉ t) :
    code t = t := by
  rw [code, takeWhile_eq_self hn, trim_eq_self h]

theorem isSeparator_commentMark : isSeparator commentMark = false := by decide

theorem commentMark_notMem_separators {e : Text} (h : ∀ c ∈ e, isSeparator c = true) :
    commentMark ∉ e := by
  intro hm
  have := h _ hm
  rw [isSeparator_commentMark] at this
  exact Bool.false_ne_true this

theorem code_append_separators {e : Text} (h : ∀ c ∈ e, isSeparator c = true) (t : Text) :
    code (t ++ e) = code t := by
  rw [code, List.takeWhile_append, takeWhile_eq_self (commentMark_notMem_separators h)]
  split
  · next hl =>
    have ht : t.takeWhile (· ≠ commentMark) = t :=
      (List.takeWhile_prefix _).eq_of_length hl
    rw [trim_append_right h, code, ht]
  · rfl

theorem code_separators_append {e : Text} (h : ∀ c ∈ e, isSeparator c = true) (t : Text) :
    code (e ++ t) = code t := by
  rw [code, takeWhile_append (commentMark_notMem_separators h), trim_append_left h, code]

/-- A line end is no code. -/
theorem code_chomp (t : Text) : code (chomp t) = code t := by
  obtain ⟨e, he, hs⟩ := exists_eq_chomp_append t
  calc code (chomp t) = code (chomp t ++ e) := (code_append_separators hs _).symm
    _ = code t := by rw [← he]

/-! ## the words of a statement -/

namespace Statement

theorem ofLine?_eq_some_iff {n : Nat} {t : Text} {s : Statement} :
    ofLine? n t = some s ↔ s.line = n ∧ fieldsUpTo maxFields (code t) = s.opcode :: s.operands := by
  unfold ofLine?
  split
  · next h =>
    rw [h]
    refine ⟨fun hs => by simp at hs, fun hs => by simp at hs⟩
  · next opcode operands h =>
    rw [h]
    refine ⟨fun hs => ?_, fun ⟨hn, hw⟩ => ?_⟩
    · obtain rfl := Option.some.inj hs
      exact ⟨rfl, rfl⟩
    · obtain ⟨ho, hr⟩ := List.cons.inj hw
      rw [ho, hr, ← hn]

theorem ofLine?_line {n : Nat} {t : Text} {s : Statement} (h : ofLine? n t = some s) :
    s.line = n := (ofLine?_eq_some_iff.mp h).1

/-- The words of a statement stand in the code of its line. -/
theorem splits_of_ofLine? {n : Nat} {t : Text} {s : Statement} (h : ofLine? n t = some s) :
    Splits 3 (s.opcode :: s.operands) (code t) := by
  obtain ⟨-, hw⟩ := ofLine?_eq_some_iff.mp h
  exact (fieldsUpTo_eq_iff_splits (isTrimmed_code t)).mp hw

/-- A line without code has no statement, every other line has one. -/
theorem exists_ofLine? (n : Nat) {t : Text} (h : code t ≠ []) : ∃ s, ofLine? n t = some s := by
  cases hs : ofLine? n t with
  | none => exact absurd (ofLine?_eq_none_iff.mp hs) h
  | some s => exact ⟨s, rfl⟩

/-- When no word holds a separator, the words of a statement are the fields of its code. -/
theorem ofLine?_iff_fields {n : Nat} {t : Text} {opcode : Text} {operands : List Text}
    (hw : ∀ w ∈ opcode :: operands, IsWord w) (hn : operands.length ≤ 3) :
    ofLine? n t = some ⟨n, opcode, operands⟩ ↔ fields (code t) = opcode :: operands := by
  rw [ofLine?_eq_some_iff, maxFields]
  rw [fieldsUpTo_eq_iff (n := 3) (isTrimmed_code t) hw (Nat.succ_le_succ hn)]
  exact and_iff_right rfl

end Statement

end Ippcode.Source
