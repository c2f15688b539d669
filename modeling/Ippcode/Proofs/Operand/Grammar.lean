import Ippcode.Proofs.Operand.Reading

/-!
# The grammar of operands

What the words of each class are, as a grammar over texts, without arguments and without reading:

* `Identifier`, `IntegerLiteral`, `StringLiteral`   names and literals;
* `OperandClass.Word c t`                           the words of class `c`.

The words of a class are the spellings of the arguments that belong to it (`word_iff`).
-/

namespace Ippcode

namespace Grammar

/-! ## names and literals -/

def Letter (c : Char) : Prop := ('A' ≤ c ∧ c ≤ 'Z') ∨ ('a' ≤ c ∧ c ≤ 'z')

def Digit (c : Char) : Prop := '0' ≤ c ∧ c ≤ '9'

def Mark (c : Char) : Prop := c ∈ ['_', '-', '$', '&', '%', '*', '!', '?']

/-- letters, digits and marks, at least one, and no digit in front -/
structure Identifier (t : Text) : Prop where
  ne_nil : t ≠ []
  chars : ∀ c ∈ t, Letter c ∨ Digit c ∨ Mark c
  head : ∀ c, t.head? = some c → ¬ Digit c

/-- digits, at least one, maybe after one sign -/
def IntegerLiteral (t : Text) : Prop :=
  ∃ sign digits, t = sign ++ digits ∧ sign ∈ [[], ['+'], ['-']] ∧ digits ≠ [] ∧
    ∀ c ∈ digits, Digit c

/-- a character that stands for itself, or a backslash with three digits -/
inductive Piece : Text → Prop where
  | plain {c : Char} : Text.isWhiteSpace c = false → Text.isControl c = false → c ≠ '#' →
      c ≠ '\\' → Piece [c]
  | escape {a b c : Char} : Digit a → Digit b → Digit c → Piece ['\\', a, b, c]

def StringLiteral (t : Text) : Prop := ∃ ps : List Text, t = ps.flatten ∧ ∀ p ∈ ps, Piece p

theorem isAlpha_iff {c : Char} : c.isAlpha = true ↔ Letter c := by
  have hupper : c.isUpper = true ↔ 'A' ≤ c ∧ c ≤ 'Z' := by
    show decide ('A'.val ≤ c.val ∧ c.val ≤ 'Z'.val) = true ↔ _
    exact decide_eq_true_iff
  have hlower : c.isLower = true ↔ 'a' ≤ c ∧ c ≤ 'z' := by
    show (decide ('a'.val ≤ c.val) && decide (c.val ≤ 'z'.val)) = true ↔ _
    rw [Bool.and_eq_true, decide_eq_true_iff, decide_eq_true_iff]
    exact Iff.rfl
  show (c.isUpper || c.isLower) = true ↔ _
  rw [Bool.or_eq_true, hupper, hlower, Letter]

theorem isDigit_iff {c : Char} : c.isDigit = true ↔ Digit c := by
  show (decide ('0'.val ≤ c.val) && decide (c.val ≤ '9'.val)) = true ↔ _
  rw [Bool.and_eq_true, decide_eq_true_iff, decide_eq_true_iff]
  exact Iff.rfl

theorem isNameStart_iff {c : Char} : Spelling.isNameStart c = true ↔ Letter c ∨ Mark c := by
  rw [Spelling.isNameStart, Bool.or_eq_true, isAlpha_iff, List.contains_iff_mem, Mark]

theorem isNameChar_iff {c : Char} :
    Spelling.isNameChar c = true ↔ Letter c ∨ Digit c ∨ Mark c := by
  rw [Spelling.isNameChar, Bool.or_eq_true, isNameStart_iff, isDigit_iff, or_assoc,
    or_comm (a := Mark c)]

/-- no character is a digit and may start a name -/
theorem not_digit_of_isNameStart {c : Char} (h : Spelling.isNameStart c = true) : ¬ Digit c := by
  intro hd
  have hle := isNameStart_iff.mp h
  obtain ⟨hlo, hhi⟩ := hd
  rcases hle with (⟨hA, -⟩ | ⟨ha, -⟩) | hm
  · exact absurd (Char.le_trans hA hhi) (by decide)
  · exact absurd (Char.le_trans ha hhi) (by decide)
  · have hnone : ∀ d ∈ ['_', '-', '$', '&', '%', '*', '!', '?'], ¬ ('0' ≤ d ∧ d ≤ '9') := by
      decide
    exact hnone c hm ⟨hlo, hhi⟩

theorem identifier_iff {t : Text} : Identifier t ↔ Spelling.isIdentifier t = true := by
  cases t with
  | nil => exact ⟨fun h => absurd rfl h.ne_nil, fun h => absurd h Bool.false_ne_true⟩
  | cons c t =>
    rw [Spelling.isIdentifier_cons, Bool.and_eq_true, List.all_eq_true]
    refine ⟨fun h => ⟨?_, ?_⟩, fun ⟨hc, ht⟩ => ⟨by simp, ?_, ?_⟩⟩
    · have hd : ¬ Digit c := h.head c rfl
      rw [isNameStart_iff]
      rcases h.chars c (List.mem_cons_self ..) with hl | hl | hl
      · exact .inl hl
      · exact absurd hl hd
      · exact .inr hl
    · intro d hd
      exact isNameChar_iff.mpr (h.chars d (List.mem_cons_of_mem _ hd))
    · intro d hd
      rcases List.mem_cons.mp hd with rfl | hd
      · exact isNameChar_iff.mp (by rw [Spelling.isNameChar, hc, Bool.true_or])
      · exact isNameChar_iff.mp (ht d hd)
    · intro d hd
      rw [← Option.some.inj hd]
      exact not_digit_of_isNameStart hc

theorem isDigits_iff {t : Text} : Spelling.isDigits t = true ↔ t ≠ [] ∧ ∀ c ∈ t, Digit c := by
  rw [Spelling.isDigits, Bool.and_eq_true, List.all_eq_true]
  refine and_congr (by simp) (forall_congr' fun c => ?_)
  rw [isDigit_iff]

theorem integerLiteral_iff {t : Text} :
    IntegerLiteral t ↔ Spelling.isIntegerLiteral t = true := by
  unfold IntegerLiteral
  simp only [← isDigits_iff]
  refine ⟨?_, fun h => ?_⟩
  · intro h
    obtain ⟨sign, digits, rfl, hs, hd⟩ := h
    simp only [List.mem_cons, List.not_mem_nil, or_false] at hs
    rcases hs with rfl | rfl | rfl
    · -- a sign is no digit, so the text takes the last branch
      show Spelling.isIntegerLiteral digits = true
      unfold Spelling.isIntegerLiteral
      split
      · exact absurd hd (by simp [Spelling.isDigits])
      · exact absurd hd (by simp [Spelling.isDigits])
      · exact hd
    · exact hd
    · exact hd
  · unfold Spelling.isIntegerLiteral at h
    split at h
    · next digits => exact ⟨['+'], digits, rfl, by simp, h⟩
    · next digits => exact ⟨['-'], digits, rfl, by simp, h⟩
    · exact ⟨[], t, rfl, by simp, h⟩

theorem isPlain_iff {c : Char} : Spelling.isPlain c = true ↔
    Text.isWhiteSpace c = false ∧ Text.isControl c = false ∧ c ≠ '#' ∧ c ≠ '\\' := by
  simp [Spelling.isPlain, and_assoc]

theorem stringLiteral_iff {t : Text} : StringLiteral t ↔ Spelling.isStringLiteral t = true := by
  refine ⟨?_, fun h => ?_⟩
  · intro h
    obtain ⟨ps, rfl, hps⟩ := h
    induction ps with
    | nil => exact Spelling.isStringLiteral_nil
    | cons p ps ih =>
      have ht := ih fun q hq => hps q (List.mem_cons_of_mem _ hq)
      rw [List.flatten_cons]
      cases hps p (List.mem_cons_self ..) with
      | plain hw hc hm hb =>
        rw [List.singleton_append, Spelling.isStringLiteral_cons hb, Bool.and_eq_true]
        exact ⟨isPlain_iff.mpr ⟨hw, hc, hm, hb⟩, ht⟩
      | escape ha hb hc =>
        show Spelling.isStringLiteral ('\\' :: _ :: _ :: _ :: ps.flatten) = true
        rw [Spelling.isStringLiteral_escape]
        simp only [isDigit_iff.mpr ha, isDigit_iff.mpr hb, isDigit_iff.mpr hc, ht, Bool.and_self]
  · fun_induction Spelling.isStringLiteral t with
    | case1 => exact ⟨[], rfl, by simp⟩
    | case2 a b c t ih =>
      simp only [Bool.and_eq_true, isDigit_iff] at h
      obtain ⟨⟨⟨ha, hb⟩, hc⟩, ht⟩ := h
      obtain ⟨ps, rfl, hps⟩ := ih ht
      exact ⟨['\\', a, b, c] :: ps, rfl, List.forall_mem_cons.mpr ⟨.escape ha hb hc, hps⟩⟩
    | case3 c t _ ih =>
      rw [Bool.and_eq_true, isPlain_iff] at h
      obtain ⟨⟨hw, hc, hm, hb⟩, ht⟩ := h
      obtain ⟨ps, rfl, hps⟩ := ih ht
      exact ⟨[c] :: ps, rfl, List.forall_mem_cons.mpr ⟨.plain hw hc hm hb, hps⟩⟩

end Grammar

/-! ## the words of a class -/

namespace OperandClass

open Grammar

/-- what an operand of a class looks like -/
inductive Word : OperandClass → Text → Prop where
  | var {tag name : Text} : tag ∈ [['G', 'F'], ['L', 'F'], ['T', 'F']] → Identifier name →
      Word var (tag ++ '@' :: name)
  | symbolVar {t : Text} : Word var t → Word symbol t
  | integer {l : Text} : IntegerLiteral l → Word symbol ("int@".toList ++ l)
  | string {l : Text} : StringLiteral l → Word symbol ("string@".toList ++ l)
  | boolean {l : Text} : l ∈ ["true".toList, "false".toList] → Word symbol ("bool@".toList ++ l)
  | nil : Word symbol "nil@nil".toList
  | label {t : Text} : Identifier t → Word label t
  | type {t : Text} : t ∈ ["int".toList, "string".toList, "bool".toList] → Word type t

theorem mem_tags_iff {t : Text} :
    t ∈ [['G', 'F'], ['L', 'F'], ['T', 'F']] ↔ ∃ f : Frame, t = f.tag := by
  refine ⟨fun h => ?_, ?_⟩
  · simp only [List.mem_cons, List.not_mem_nil, or_false] at h
    rcases h with rfl | rfl | rfl
    · exact ⟨.globals, rfl⟩
    · exact ⟨.locals, rfl⟩
    · exact ⟨.temporaries, rfl⟩
  · intro h
    obtain ⟨f, rfl⟩ := h
    cases f <;> decide

theorem word_var_iff {t : Text} : Word var t ↔ ∃ a, var.Admits a ∧ a.spelling = t := by
  refine ⟨fun h => ?_, ?_⟩
  · cases h with
    | @var tag name htag hn =>
      obtain ⟨f, rfl⟩ := mem_tags_iff.mp htag
      exact ⟨.var f name, identifier_iff.mp hn, rfl⟩
  · intro h
    obtain ⟨a, ha, rfl⟩ := h
    obtain ⟨f, name, rfl, hn⟩ := admits_var_iff.mp ha
    exact .var (mem_tags_iff.mpr ⟨f, rfl⟩) (identifier_iff.mpr hn)

/-- **The words of a class are the spellings of its arguments.** -/
theorem word_iff {c : OperandClass} {t : Text} :
    c.Word t ↔ ∃ a, c.Admits a ∧ a.spelling = t := by
  refine ⟨fun h => ?_, ?_⟩
  · cases h with
    | var htag hn => exact word_var_iff.mp (.var htag hn)
    | symbolVar hv =>
      obtain ⟨a, ha, ht⟩ := word_var_iff.mp hv
      exact ⟨a, admits_symbol_iff.mpr (.inl ha), ht⟩
    | @integer l hl => exact ⟨.integer l, integerLiteral_iff.mp hl, rfl⟩
    | @string l hl => exact ⟨.string l, stringLiteral_iff.mp hl, rfl⟩
    | @boolean l hl =>
      simp only [List.mem_cons, List.not_mem_nil, or_false] at hl
      rcases hl with rfl | rfl
      · exact ⟨.boolean true, trivial, rfl⟩
      · exact ⟨.boolean false, trivial, rfl⟩
    | nil => exact ⟨.nil, trivial, rfl⟩
    | @label t hn => exact ⟨.label t, identifier_iff.mp hn, rfl⟩
    | type ht =>
      simp only [List.mem_cons, List.not_mem_nil, or_false] at ht
      rcases ht with rfl | rfl | rfl
      · exact ⟨.type .integer, trivial, rfl⟩
      · exact ⟨.type .string, trivial, rfl⟩
      · exact ⟨.type .boolean, trivial, rfl⟩
  · intro h
    obtain ⟨a, ha, rfl⟩ := h
    cases c with
    | var => exact word_var_iff.mpr ⟨a, ha, rfl⟩
    | symbol =>
      cases a with
      | var f name => exact .symbolVar (word_var_iff.mpr ⟨.var f name, ha, rfl⟩)
      | integer l => exact .integer (integerLiteral_iff.mpr ha)
      | string l => exact .string (stringLiteral_iff.mpr ha)
      | boolean b =>
        cases b with
        | true => exact Word.boolean (l := "true".toList) (by simp)
        | false => exact Word.boolean (l := "false".toList) (by simp)
      | nil => exact .nil
      | label name => exact absurd ha id
      | type v => exact absurd ha id
    | label =>
      obtain ⟨name, rfl, hn⟩ := admits_label_iff.mp ha
      exact .label (identifier_iff.mpr hn)
    | type =>
      obtain ⟨v, rfl⟩ := admits_type_iff.mp ha
      exact .type (by cases v <;> decide)

end OperandClass

end Ippcode
