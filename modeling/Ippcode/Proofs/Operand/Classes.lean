import Ippcode.Proofs.Operand.Grammar

/-!
# What the classes of operands hold, and where they overlap

* `OperandClass.Holds c a`   the arguments of class `c`, by the grammar of their names and literals;
* `read?_lossless`           reading takes a word to the one argument of the class that is spelled
                             that way: the grammar is all that is read, and nothing of it is lost;
* `Overlaps c d`             a variable is also a symbol, a type is also a label;
* `classes_overlap`          no word is in any other two classes, and in those two it is spelled
                             the same.

What tells a variable or a constant from a label or a type is the `@` (`at_mem_spelling_iff`).
-/

namespace Ippcode

open Grammar

/-! ## what a class holds -/

namespace OperandClass

inductive Holds : OperandClass → Argument → Prop where
  | var {name : Text} (frame : Frame) : Identifier name → Holds var (.var frame name)
  | symbolVar {name : Text} (frame : Frame) : Identifier name → Holds symbol (.var frame name)
  | integer {l : Text} : IntegerLiteral l → Holds symbol (.integer l)
  | string {l : Text} : StringLiteral l → Holds symbol (.string l)
  | boolean (b : Bool) : Holds symbol (.boolean b)
  | nil : Holds symbol .nil
  | label {name : Text} : Identifier name → Holds label (.label name)
  | type (v : ValueType) : Holds type (.type v)

theorem holds_iff {c : OperandClass} {a : Argument} : c.Holds a ↔ c.Admits a := by
  refine ⟨fun h => ?_, fun h => ?_⟩
  · cases h with
    | var _ hn => exact identifier_iff.mp hn
    | symbolVar _ hn => exact identifier_iff.mp hn
    | integer hl => exact integerLiteral_iff.mp hl
    | string hl => exact stringLiteral_iff.mp hl
    | boolean => trivial
    | nil => trivial
    | label hn => exact identifier_iff.mp hn
    | type => trivial
  · cases c with
    | var =>
      obtain ⟨frame, name, rfl, hn⟩ := admits_var_iff.mp h
      exact .var frame (identifier_iff.mpr hn)
    | symbol =>
      cases a with
      | var frame name => exact .symbolVar frame (identifier_iff.mpr h)
      | integer l => exact .integer (integerLiteral_iff.mpr h)
      | string l => exact .string (stringLiteral_iff.mpr h)
      | boolean b => exact .boolean b
      | nil => exact .nil
      | label name => exact absurd h id
      | type v => exact absurd h id
    | label =>
      obtain ⟨name, rfl, hn⟩ := admits_label_iff.mp h
      exact .label (identifier_iff.mpr hn)
    | type =>
      obtain ⟨v, rfl⟩ := admits_type_iff.mp h
      exact .type v

theorem read?_eq_some_iff_holds {c : OperandClass} {t : Text} {a : Argument} :
    c.read? t = some a ↔ a.spelling = t ∧ c.Holds a := by
  rw [read?_eq_some_iff, holds_iff]
  exact and_comm

theorem isSome_read?_iff {c : OperandClass} {t : Text} :
    (c.read? t).isSome = true ↔ c.Word t := by
  rw [Option.isSome_iff_exists, word_iff]
  exact exists_congr fun a => read?_eq_some_iff

/-- **Reading is exact and loses nothing.**  A word is read as an argument exactly when the argument
is spelled that way and the class holds it; so the words of the grammar are read, and no others,
and reading and spelling undo each other. -/
theorem read?_lossless (c : OperandClass) :
    (∀ t a, c.read? t = some a ↔ a.spelling = t ∧ c.Holds a) ∧
    (∀ t, (c.read? t).isSome = true ↔ c.Word t) ∧
    (∀ t a, c.read? t = some a → a.spelling = t) ∧
    ∀ a, c.Holds a → c.read? a.spelling = some a := by
  refine ⟨fun t a => read?_eq_some_iff_holds, fun t => isSome_read?_iff, ?_, ?_⟩
  · intro t a h
    exact (read?_eq_some_iff_holds.mp h).1
  · intro a h
    exact read?_eq_some_iff_holds.mpr ⟨rfl, h⟩

end OperandClass

/-! ## the `@` in a word -/

theorem Spelling.at_notMem_of_isIdentifier {t : Text} (h : isIdentifier t = true) : '@' ∉ t := by
  intro hm
  have hat := isNameChar_of_isIdentifier h '@' hm
  exact absurd hat (by decide)

theorem ValueType.isIdentifier_name (v : ValueType) : Spelling.isIdentifier v.name = true := by
  cases v <;> decide

namespace Argument

theorem at_mem_spelling_of_isConstant {a : Argument} (h : a.isConstant = true) :
    '@' ∈ a.spelling := by
  rw [spelling_of_isConstant h]
  simp

/-- A word that is read as a variable is no constant. -/
theorem constant?_of_var? {t : Text} {a : Argument} (h : var? t = some a) : constant? t = none := by
  rw [Option.eq_none_iff_forall_ne_some]
  intro b hb
  obtain ⟨-, -, rfl⟩ := constant?_eq_some_iff.mp hb
  rw [var?_kind] at h
  cases h

/-- So it does not matter which of the two is tried first. -/
theorem symbol?_comm (t : Text) : symbol? t = (constant? t).or (var? t) := by
  unfold symbol?
  cases hv : var? t with
  | none => rw [Option.none_or, Option.or_none]
  | some a => rw [constant?_of_var? hv, Option.none_or, Option.some_or]

end Argument

namespace OperandClass

/-- An argument has an `@` in its spelling where its class is that of variables or of symbols. -/
theorem at_mem_spelling_iff {c : OperandClass} {a : Argument} (h : c.Admits a) :
    '@' ∈ a.spelling ↔ c = var ∨ c = symbol := by
  have hvar : ∀ {a : Argument}, var.Admits a → '@' ∈ a.spelling := by
    intro a ha
    obtain ⟨frame, name, rfl, -⟩ := admits_var_iff.mp ha
    show '@' ∈ frame.tag ++ '@' :: name
    simp
  cases c with
  | var => exact iff_of_true (hvar h) (.inl rfl)
  | symbol =>
    refine iff_of_true ?_ (.inr rfl)
    rcases admits_symbol_iff.mp h with hv | ⟨hc, -⟩
    · exact hvar hv
    · exact Argument.at_mem_spelling_of_isConstant hc
  | label =>
    obtain ⟨name, rfl, hn⟩ := admits_label_iff.mp h
    exact iff_of_false (Spelling.at_notMem_of_isIdentifier hn) (by simp)
  | type =>
    obtain ⟨v, rfl⟩ := admits_type_iff.mp h
    exact iff_of_false (Spelling.at_notMem_of_isIdentifier v.isIdentifier_name) (by simp)

/-! ## two classes for one word -/

/-- the two classes that have words of another one among theirs -/
def Overlaps (c d : OperandClass) : Prop :=
  (c = var ∧ d = symbol) ∨ (c = symbol ∧ d = var) ∨ (c = label ∧ d = type) ∨ (c = type ∧ d = label)

section

variable {c d : OperandClass} {t : Text} {a b : Argument}

theorem eq_or_overlaps (ha : c.read? t = some a) (hb : d.read? t = some b) :
    c = d ∨ Overlaps c d := by
  obtain ⟨hc, hta⟩ := read?_eq_some_iff.mp ha
  obtain ⟨hd, htb⟩ := read?_eq_some_iff.mp hb
  -- both classes are on the same side of the `@`
  have hside : (c = var ∨ c = symbol) ↔ (d = var ∨ d = symbol) := by
    rw [← at_mem_spelling_iff hc, ← at_mem_spelling_iff hd, hta, htb]
  unfold Overlaps
  cases c <;> cases d <;> simp at hside ⊢

theorem read?_eq_none_or (hne : c ≠ d) (hn : ¬ Overlaps c d) (t : Text) :
    c.read? t = none ∨ d.read? t = none := by
  cases ha : c.read? t with
  | none => exact .inl rfl
  | some a =>
    cases hb : d.read? t with
    | none => exact .inr rfl
    | some b => exact absurd (eq_or_overlaps ha hb) (not_or.mpr ⟨hne, hn⟩)

/-- what is read as a variable is the same symbol -/
theorem read?_symbol_of_var (h : var.read? t = some a) : symbol.read? t = some a := by
  obtain ⟨ha, rfl⟩ := read?_eq_some_iff.mp h
  exact read?_eq_some_iff.mpr ⟨admits_symbol_iff.mpr (.inl ha), rfl⟩

/-- what is read as a type is a label too -/
theorem read?_label_of_type (h : type.read? t = some a) : label.read? t = some (.label t) := by
  obtain ⟨ha, rfl⟩ := read?_eq_some_iff.mp h
  obtain ⟨v, rfl⟩ := admits_type_iff.mp ha
  exact read?_eq_some_iff.mpr ⟨v.isIdentifier_name, rfl⟩

end

/-- **Two classes have a word in common only where a variable is a symbol or a type is a label.**
A word is not both a variable and a constant, so a symbol is read in one way; and whatever a word
is read as, it is spelled as it stands. -/
theorem classes_overlap (t : Text) :
    (Argument.var? t = none ∨ Argument.constant? t = none) ∧
    symbol.read? t = (Argument.var? t).or (Argument.constant? t) ∧
    symbol.read? t = (Argument.constant? t).or (Argument.var? t) ∧
    (symbol.read? t = none ∨ label.read? t = none) ∧
    (symbol.read? t = none ∨ type.read? t = none) ∧
    ((type.read? t).isSome = true → (label.read? t).isSome = true) ∧
    (∀ c d a b, c ≠ d → c.read? t = some a → d.read? t = some b →
      Overlaps c d ∧ a.spelling = t ∧ b.spelling = t) ∧
    ∀ a b, var.read? t = some a → symbol.read? t = some b → a = b := by
  refine ⟨?_, rfl, Argument.symbol?_comm t, ?_, ?_, ?_, ?_, ?_⟩
  · cases hv : Argument.var? t with
    | none => exact .inl rfl
    | some a => exact .inr (Argument.constant?_of_var? hv)
  · exact read?_eq_none_or (by decide) (by simp [Overlaps]) t
  · exact read?_eq_none_or (by decide) (by simp [Overlaps]) t
  · intro h
    obtain ⟨a, ha⟩ := Option.isSome_iff_exists.mp h
    rw [read?_label_of_type ha, Option.isSome_some]
  · intro c d a b hne ha hb
    have hover := (eq_or_overlaps ha hb).resolve_left hne
    exact ⟨hover, (read?_eq_some_iff.mp ha).2, (read?_eq_some_iff.mp hb).2⟩
  · intro a b ha hb
    rw [read?_symbol_of_var ha] at hb
    exact Option.some.inj hb

end OperandClass

end Ippcode
