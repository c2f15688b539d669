import Ippcode.Operand.Class
import Ippcode.Proofs.Source.Code

/-!
# Reading operands is exact

A word is read as the argument `a` of a class exactly when `a` belongs to the class and is spelled
that way (`OperandClass.read?_eq_some_iff`).  An operand that belongs to a class is one word of
code: nothing in it ends a word or starts a comment (`Argument.clean_spelling`).
-/

namespace Ippcode

open Text Source

/-! ## variables and constants -/

namespace Argument

theorem var?_eq_some_iff {t : Text} {a : Argument} : var? t = some a ↔
    ∃ frame name, a = var frame name ∧ Spelling.isIdentifier name = true ∧
      t = frame.tag ++ '@' :: name := by
  refine ⟨fun h => ?_, ?_⟩
  · unfold var? at h
    split at h
    · simp at h
    · next tag name ht =>
      obtain ⟨-, rfl⟩ := tagged?_eq_some_iff.mp ht
      split at h
      · next frame hf =>
        split at h
        · next hn => exact ⟨frame, name, (Option.some.inj h).symm, hn, by
            rw [Frame.ofTag?_eq_some_iff.mp hf]⟩
        · simp at h
      · simp at h
  · intro h
    obtain ⟨frame, name, rfl, hn, rfl⟩ := h
    have htag : '@' ∉ frame.tag := by cases frame <;> decide
    rw [var?, tagged?_append htag]
    simp only [Frame.ofTag?_tag, hn, if_true]

theorem at_notMem_kind (a : Argument) : '@' ∉ a.kind := by
  cases a <;> simp only [kind] <;> decide

theorem constant?_integer (l : Text) : constant? ((integer l).kind ++ '@' :: l)
    = if Spelling.isIntegerLiteral l then some (integer l) else none := by
  rw [constant?, tagged?_append (at_notMem_kind _)]
  rfl

theorem constant?_string (l : Text) : constant? ((string l).kind ++ '@' :: l)
    = if Spelling.isStringLiteral l then some (string l) else none := by
  rw [constant?, tagged?_append (at_notMem_kind _)]
  rfl

theorem constant?_eq_some_iff {t : Text} {a : Argument} : constant? t = some a ↔
    a.isConstant = true ∧ OperandClass.symbol.Admits a ∧ t = a.kind ++ '@' :: a.text := by
  refine ⟨fun h => ?_, fun ⟨hc, ha, ht⟩ => ?_⟩
  · unfold constant? at h
    split at h
    · simp at h
    next tag literal ht =>
    obtain ⟨-, rfl⟩ := tagged?_eq_some_iff.mp ht
    split at h
    · next hk =>
      split at h
      · next hl =>
        have ht : tag ++ '@' :: literal = (integer literal).kind ++ '@' :: literal := by rw [hk]
        rw [← Option.some.inj h]
        exact ⟨rfl, hl, ht⟩
      · simp at h
    split at h
    · next hk =>
      split at h
      · next hl =>
        have ht : tag ++ '@' :: literal = (string literal).kind ++ '@' :: literal := by rw [hk]
        rw [← Option.some.inj h]
        exact ⟨rfl, hl, ht⟩
      · simp at h
    split at h
    · next hk =>
      split at h
      · next hl =>
        rw [← Option.some.inj h]
        exact ⟨rfl, trivial, by rw [hk, hl]⟩
      split at h
      · next hl =>
        rw [← Option.some.inj h]
        exact ⟨rfl, trivial, by rw [hk, hl]; rfl⟩
      · simp at h
    split at h
    · next hk =>
      split at h
      · next hl =>
        rw [← Option.some.inj h]
        exact ⟨rfl, trivial, by rw [hk, hl]⟩
      · simp at h
    · simp at h
  · subst ht
    cases a with
    | integer l =>
      have hl : Spelling.isIntegerLiteral l = true := ha
      exact (constant?_integer l).trans (if_pos hl)
    | string l =>
      have hl : Spelling.isStringLiteral l = true := ha
      exact (constant?_string l).trans (if_pos hl)
    | boolean b => cases b <;> rfl
    | nil => rfl
    | var f n => simp [isConstant] at hc
    | label n => simp [isConstant] at hc
    | type v => simp [isConstant] at hc

/-- What has a kind in front is no variable: no frame is called like a kind. -/
theorem var?_kind (a : Argument) : var? (a.kind ++ '@' :: a.text) = none := by
  have hk : Frame.ofTag? a.kind = none := by cases a <;> rfl
  rw [var?, tagged?_append (at_notMem_kind a)]
  simp only [hk]

theorem symbol?_eq_some_iff {t : Text} {a : Argument} :
    symbol? t = some a ↔ var? t = some a ∨ constant? t = some a := by
  rw [symbol?, Option.or_eq_some_iff]
  refine ⟨Or.imp_right And.right, ?_⟩
  intro h
  rcases h with h | h
  · exact .inl h
  · obtain ⟨hc, -, rfl⟩ := constant?_eq_some_iff.mp h
    exact .inr ⟨var?_kind a, h⟩

theorem label?_eq_some_iff {t : Text} {a : Argument} :
    label? t = some a ↔ a = label t ∧ Spelling.isIdentifier t = true := by
  unfold label?
  split
  · next h => simp [h, eq_comm]
  · next h => simp [h]

theorem type?_eq_some_iff {t : Text} {a : Argument} :
    type? t = some a ↔ ∃ v, a = type v ∧ t = v.name := by
  rw [type?, Option.map_eq_some_iff]
  refine exists_congr fun v => ?_
  rw [ValueType.ofName?_eq_some_iff, eq_comm (a := type v)]
  exact and_comm

end Argument

/-! ## the four classes -/

namespace OperandClass

theorem admits_var_iff {a : Argument} : var.Admits a ↔
    ∃ frame name, a = .var frame name ∧ Spelling.isIdentifier name = true := by
  refine ⟨fun h => ?_, ?_⟩
  · cases a with
    | var frame name => exact ⟨frame, name, rfl, h⟩
    | _ => exact absurd h id
  · intro h
    obtain ⟨frame, name, rfl, hn⟩ := h
    exact hn

theorem admits_label_iff {a : Argument} :
    label.Admits a ↔ ∃ name, a = .label name ∧ Spelling.isIdentifier name = true := by
  refine ⟨fun h => ?_, ?_⟩
  · cases a with
    | label name => exact ⟨name, rfl, h⟩
    | _ => exact absurd h id
  · intro h
    obtain ⟨name, rfl, hn⟩ := h
    exact hn

theorem admits_type_iff {a : Argument} : type.Admits a ↔ ∃ v, a = .type v := by
  refine ⟨fun h => ?_, ?_⟩
  · cases a with
    | type v => exact ⟨v, rfl⟩
    | _ => exact absurd h id
  · intro h
    obtain ⟨v, rfl⟩ := h
    trivial

/-- A symbol is a variable or a constant. -/
theorem admits_symbol_iff {a : Argument} :
    symbol.Admits a ↔ var.Admits a ∨ (a.isConstant = true ∧ symbol.Admits a) := by
  refine ⟨fun h => ?_, ?_⟩
  · cases hc : a.isConstant with
    | true => exact .inr ⟨rfl, h⟩
    | false =>
      cases a with
      | var frame name => exact .inl h
      | label name => exact absurd h id
      | type v => exact absurd h id
      | _ => simp [Argument.isConstant] at hc
  · intro h
    rcases h with h | h
    · obtain ⟨frame, name, rfl, hn⟩ := admits_var_iff.mp h
      exact hn
    · exact h.2

/-- **A word is read as an argument exactly when the argument belongs to the class and is spelled
that way.** -/
theorem read?_eq_some_iff {c : OperandClass} {t : Text} {a : Argument} :
    c.read? t = some a ↔ c.Admits a ∧ a.spelling = t := by
  have hvar : Argument.var? t = some a ↔ var.Admits a ∧ a.spelling = t := by
    rw [Argument.var?_eq_some_iff, admits_var_iff]
    refine ⟨?_, ?_⟩
    · intro h
      obtain ⟨frame, name, rfl, hn, rfl⟩ := h
      exact ⟨⟨frame, name, rfl, hn⟩, rfl⟩
    · intro h
      obtain ⟨⟨frame, name, rfl, hn⟩, rfl⟩ := h
      exact ⟨frame, name, rfl, hn, rfl⟩
  cases c with
  | var => exact hvar
  | symbol =>
    show Argument.symbol? t = some a ↔ _
    rw [Argument.symbol?_eq_some_iff, hvar, Argument.constant?_eq_some_iff]
    refine ⟨?_, fun ⟨ha, ht⟩ => ?_⟩
    · intro h
      rcases h with ⟨ha, ht⟩ | ⟨hc, ha, rfl⟩
      · exact ⟨admits_symbol_iff.mpr (.inl ha), ht⟩
      · exact ⟨ha, Argument.spelling_of_isConstant hc⟩
    · rcases admits_symbol_iff.mp ha with ha | ⟨hc, ha⟩
      · exact .inl ⟨ha, ht⟩
      · exact .inr ⟨hc, ha, by rw [← ht, Argument.spelling_of_isConstant hc]⟩
  | label =>
    show Argument.label? t = some a ↔ _
    rw [Argument.label?_eq_some_iff, admits_label_iff]
    refine ⟨?_, ?_⟩
    · intro h
      obtain ⟨rfl, hn⟩ := h
      exact ⟨⟨t, rfl, hn⟩, rfl⟩
    · intro h
      obtain ⟨⟨name, rfl, hn⟩, rfl⟩ := h
      exact ⟨rfl, hn⟩
  | type =>
    show Argument.type? t = some a ↔ _
    rw [Argument.type?_eq_some_iff, admits_type_iff]
    refine ⟨?_, ?_⟩
    · intro h
      obtain ⟨v, rfl, rfl⟩ := h
      exact ⟨⟨v, rfl⟩, rfl⟩
    · intro h
      obtain ⟨⟨v, rfl⟩, rfl⟩ := h
      exact ⟨v, rfl, rfl⟩

theorem read?_eq_none_iff {c : OperandClass} {t : Text} :
    c.read? t = none ↔ ∀ a, c.Admits a → a.spelling ≠ t := by
  rw [Option.eq_none_iff_forall_ne_some]
  refine forall_congr' fun a => ?_
  rw [Ne, read?_eq_some_iff, not_and]

end OperandClass

/-! ## an operand is one word of code -/

/-- the characters that end a word or start a comment -/
def boundaries : List Char := [' ', '\t', '\n', '\x0b', '\x0c', '\r', commentMark]

theorem mem_boundaries_iff {c : Char} :
    c ∈ boundaries ↔ isSeparator c = true ∨ c = commentMark := by
  simp [boundaries, isSeparator, or_assoc]

theorem notMem_boundaries {q : Char → Bool} (hq : ∀ c ∈ boundaries, q c = false) {c : Char}
    (hc : q c = true) : c ∉ boundaries := by
  intro h
  rw [hq c h] at hc
  exact Bool.false_ne_true hc

theorem isWord_of_clean {t : Text} (hne : t ≠ []) (h : ∀ c ∈ t, c ∉ boundaries) : IsWord t := by
  refine ⟨hne, fun c hc => ?_⟩
  have hb := h c hc
  rw [mem_boundaries_iff, not_or] at hb
  simpa using hb.1

namespace Spelling

theorem clean_identifier {t : Text} (h : isIdentifier t = true) : ∀ c ∈ t, c ∉ boundaries := by
  intro c hc
  exact notMem_boundaries (q := isNameChar) (by decide) (isNameChar_of_isIdentifier h c hc)

theorem isDigit_of_isDigits {t : Text} (h : isDigits t = true) : ∀ c ∈ t, c.isDigit = true := by
  rw [isDigits, Bool.and_eq_true] at h
  exact List.all_eq_true.mp h.2

theorem isDigit_or_sign_of_isIntegerLiteral {t : Text} (h : isIntegerLiteral t = true) :
    ∀ c ∈ t, c.isDigit = true ∨ c = '+' ∨ c = '-' := by
  have hdigits : ∀ {u : Text}, isDigits u = true →
      ∀ c ∈ u, c.isDigit = true ∨ c = '+' ∨ c = '-' :=
    fun hu c hc => .inl (isDigit_of_isDigits hu c hc)
  unfold isIntegerLiteral at h
  split at h
  · exact List.forall_mem_cons.mpr ⟨.inr (.inl rfl), hdigits h⟩
  · exact List.forall_mem_cons.mpr ⟨.inr (.inr rfl), hdigits h⟩
  · exact hdigits h

theorem isPlain_or_escape_of_isStringLiteral {t : Text} (h : isStringLiteral t = true) :
    ∀ c ∈ t, isPlain c = true ∨ c.isDigit = true ∨ c = '\\' := by
  fun_induction isStringLiteral t with
  | case1 => simp
  | case2 a b c t ih =>
    simp only [Bool.and_eq_true] at h
    obtain ⟨⟨⟨ha, hb⟩, hc⟩, ht⟩ := h
    rw [List.forall_mem_cons, List.forall_mem_cons, List.forall_mem_cons, List.forall_mem_cons]
    exact ⟨.inr (.inr rfl), .inr (.inl ha), .inr (.inl hb), .inr (.inl hc), ih ht⟩
  | case3 c t _ ih =>
    rw [Bool.and_eq_true] at h
    exact List.forall_mem_cons.mpr ⟨.inl h.1, ih h.2⟩

theorem clean_integerLiteral {t : Text} (h : isIntegerLiteral t = true) :
    ∀ c ∈ t, c ∉ boundaries := by
  intro c hc
  rcases isDigit_or_sign_of_isIntegerLiteral h c hc with hd | rfl | rfl
  · exact notMem_boundaries (q := Char.isDigit) (by decide) hd
  · decide
  · decide

theorem clean_stringLiteral {t : Text} (h : isStringLiteral t = true) :
    ∀ c ∈ t, c ∉ boundaries := by
  intro c hc
  rcases isPlain_or_escape_of_isStringLiteral h c hc with hp | hd | rfl
  · exact notMem_boundaries (q := isPlain) (by decide) hp
  · exact notMem_boundaries (q := Char.isDigit) (by decide) hd
  · decide

end Spelling

/-- what every class that admits an argument asks of it -/
def Argument.IsWellSpelled : Argument → Prop
  | var _ name => Spelling.isIdentifier name = true
  | integer literal => Spelling.isIntegerLiteral literal = true
  | string literal => Spelling.isStringLiteral literal = true
  | label name => Spelling.isIdentifier name = true
  | _ => True

theorem OperandClass.isWellSpelled {c : OperandClass} {a : Argument} (h : c.Admits a) :
    a.IsWellSpelled := by
  cases c <;> cases a <;> first | exact h | exact absurd h id

namespace Argument

theorem clean_spelling {a : Argument} (h : a.IsWellSpelled) : ∀ d ∈ a.spelling, d ∉ boundaries := by
  have hjoin : ∀ {k l : Text}, (∀ d ∈ k, d ∉ boundaries) → (∀ d ∈ l, d ∉ boundaries) →
      ∀ d ∈ k ++ '@' :: l, d ∉ boundaries := by
    intro k l hk hl
    rw [List.forall_mem_append, List.forall_mem_cons]
    exact ⟨hk, by decide, hl⟩
  cases a with
  | var frame name => exact hjoin (by cases frame <;> decide) (Spelling.clean_identifier h)
  | integer l =>
    exact hjoin (k := ValueType.integer.name) (by decide) (Spelling.clean_integerLiteral h)
  | string l =>
    exact hjoin (k := ValueType.string.name) (by decide) (Spelling.clean_stringLiteral h)
  | boolean b => cases b <;> decide
  | nil => decide
  | label name => exact Spelling.clean_identifier h
  | type v => cases v <;> decide

theorem spelling_ne_nil {a : Argument} (h : a.IsWellSpelled) : a.spelling ≠ [] := by
  cases a with
  | var frame name => cases frame <;> simp [spelling, isConstant, text]
  | label name =>
    intro h'
    obtain rfl : name = [] := h'
    exact Bool.false_ne_true h
  | type v => cases v <;> decide
  | _ => simp [spelling, isConstant]

theorem isWord_spelling {a : Argument} (h : a.IsWellSpelled) : IsWord a.spelling :=
  isWord_of_clean (spelling_ne_nil h) (clean_spelling h)

end Argument

end Ippcode
