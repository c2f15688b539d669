import Ippcode.Operand.Argument

/-!
# The classes of operands

Each position of an instruction asks for an operand of one class.  An operand with an `@` is
told by what is in front of the first one: a frame, or the kind of a constant.  Letters and digits
are the ASCII ones.

* `isIdentifier`       a letter or one of `_-$&%*!?`, then any of these or digits;
* `isIntegerLiteral`   digits, maybe after one sign;
* `isStringLiteral`    characters that stand for themselves, and escapes of a backslash with
                       three digits.  Blanks, control characters, `#` and a bare backslash can
                       only be written as escapes;
* `OperandClass.read? c t`     the argument that the word `t` is, read as one of class `c`;
* `OperandClass.Admits c a`    the arguments that belong to class `c`.

A label and a type have no `@`, so the same word may be read as either; every type is also a
label.
-/

namespace Ippcode

namespace Spelling

/-! ## identifiers -/

/-- a character that may start an identifier -/
def isNameStart (c : Char) : Bool :=
  c.isAlpha || ['_', '-', '$', '&', '%', '*', '!', '?'].contains c

/-- a character that may go on an identifier -/
def isNameChar (c : Char) : Bool := isNameStart c || c.isDigit

def isIdentifier : Text → Bool
  | [] => false
  | c :: t => isNameStart c && t.all isNameChar

theorem isIdentifier_nil : isIdentifier [] = false := rfl
theorem isIdentifier_cons (c : Char) (t : Text) :
    isIdentifier (c :: t) = (isNameStart c && t.all isNameChar) := rfl

theorem isNameChar_of_isIdentifier {t : Text} (h : isIdentifier t = true) :
    ∀ c ∈ t, isNameChar c = true := by
  cases t with
  | nil => simp
  | cons a t =>
    rw [isIdentifier_cons, Bool.and_eq_true] at h
    intro c hc
    rcases List.mem_cons.mp hc with rfl | hc
    · simp [isNameChar, h.1]
    · exact List.all_eq_true.mp h.2 c hc

/-! ## integers -/

def isDigits (t : Text) : Bool := !t.isEmpty && t.all Char.isDigit

def isIntegerLiteral : Text → Bool
  | '+' :: t => isDigits t
  | '-' :: t => isDigits t
  | t => isDigits t

/-! ## strings -/

/-- a character that stands for itself -/
def isPlain (c : Char) : Bool :=
  !Text.isWhiteSpace c && !Text.isControl c && c != '#' && c != '\\'

def isStringLiteral : Text → Bool
  | [] => true
  | '\\' :: a :: b :: c :: t => a.isDigit && b.isDigit && c.isDigit && isStringLiteral t
  | c :: t => isPlain c && isStringLiteral t

theorem isStringLiteral_nil : isStringLiteral [] = true := by
  unfold isStringLiteral; rfl

theorem isStringLiteral_escape (a b c : Char) (t : Text) : isStringLiteral ('\\' :: a :: b :: c :: t)
    = (a.isDigit && b.isDigit && c.isDigit && isStringLiteral t) := by
  rw [isStringLiteral]

theorem isStringLiteral_cons {c : Char} (h : c ≠ '\\') (t : Text) :
    isStringLiteral (c :: t) = (isPlain c && isStringLiteral t) := by
  rw [isStringLiteral]
  intro a b d u hc
  exact absurd hc h

end Spelling

/-! ## what is in front of the first `@` -/

/-- a word cut at its first `@`; none where it has no `@` -/
def tagged? (t : Text) : Option (Text × Text) :=
  match t.dropWhile (· ≠ '@') with
  | [] => none
  | _ :: rest => some (t.takeWhile (· ≠ '@'), rest)

theorem tagged?_nil : tagged? [] = none := rfl
theorem tagged?_at (t : Text) : tagged? ('@' :: t) = some ([], t) := by simp [tagged?]
theorem tagged?_cons {c : Char} (h : c ≠ '@') (t : Text) :
    tagged? (c :: t) = (tagged? t).map fun p => (c :: p.1, p.2) := by
  unfold tagged?
  rw [List.dropWhile_cons_of_pos (by simpa using h), List.takeWhile_cons_of_pos (by simpa using h)]
  split <;> simp

theorem tagged?_append {a : Text} (h : '@' ∉ a) (b : Text) :
    tagged? (a ++ '@' :: b) = some (a, b) := by
  induction a with
  | nil => exact tagged?_at b
  | cons c a ih =>
    rw [List.mem_cons, not_or] at h
    rw [List.cons_append, tagged?_cons (Ne.symm h.1), ih h.2, Option.map_some]

theorem tagged?_eq_some_iff {t a b : Text} :
    tagged? t = some (a, b) ↔ '@' ∉ a ∧ t = a ++ '@' :: b := by
  refine ⟨fun h => ?_, fun ⟨ha, ht⟩ => ht ▸ tagged?_append ha b⟩
  induction t generalizing a with
  | nil => simp [tagged?_nil] at h
  | cons c t ih =>
    by_cases hc : c = '@'
    · subst hc
      rw [tagged?_at, Option.some.injEq, Prod.mk.injEq] at h
      obtain ⟨rfl, rfl⟩ := h
      simp
    · rw [tagged?_cons hc] at h
      obtain ⟨⟨a', b'⟩, h', e⟩ := Option.map_eq_some_iff.mp h
      rw [Prod.mk.injEq] at e
      obtain ⟨rfl, rfl⟩ := e
      obtain ⟨ha, rfl⟩ := ih h'
      exact ⟨by simp [ha, Ne.symm hc], rfl⟩

/-! ## arguments of each sort -/

namespace Argument

def var? (t : Text) : Option Argument :=
  match tagged? t with
  | none => none
  | some (tag, name) =>
    match Frame.ofTag? tag with
    | some frame => if Spelling.isIdentifier name then some (var frame name) else none
    | none => none

def constant? (t : Text) : Option Argument :=
  match tagged? t with
  | none => none
  | some (tag, literal) =>
    if tag = (integer literal).kind then
      if Spelling.isIntegerLiteral literal then some (integer literal) else none
    else if tag = (string literal).kind then
      if Spelling.isStringLiteral literal then some (string literal) else none
    else if tag = (boolean true).kind then
      if literal = (boolean true).text then some (boolean true)
      else if literal = (boolean false).text then some (boolean false)
      else none
    else if tag = nil.kind then
      if literal = nil.text then some nil else none
    else none

def symbol? (t : Text) : Option Argument := (var? t).or (constant? t)

def label? (t : Text) : Option Argument :=
  if Spelling.isIdentifier t then some (label t) else none

def type? (t : Text) : Option Argument := (ValueType.ofName? t).map type

end Argument

/-! ## classes -/

/-- what a position of an instruction asks for -/
inductive OperandClass where
  | var
  | symbol
  | label
  | type
deriving DecidableEq, Repr

namespace OperandClass

def name : OperandClass → Text
  | var => "variable".toList
  | symbol => "symbol".toList
  | label => "label".toList
  | type => "type".toList

def read? : OperandClass → Text → Option Argument
  | var => Argument.var?
  | symbol => Argument.symbol?
  | label => Argument.label?
  | type => Argument.type?

def Admits : OperandClass → Argument → Prop
  | var, .var _ name => Spelling.isIdentifier name = true
  | symbol, .var _ name => Spelling.isIdentifier name = true
  | symbol, .integer literal => Spelling.isIntegerLiteral literal = true
  | symbol, .string literal => Spelling.isStringLiteral literal = true
  | symbol, .boolean _ => True
  | symbol, .nil => True
  | label, .label name => Spelling.isIdentifier name = true
  | type, .type _ => True
  | _, _ => False

end OperandClass

end Ippcode
