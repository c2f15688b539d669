/-!
# Texts

A text is the list of its characters, so that everything said about a text is said by induction
on a list.  Fixed wording is written as a string literal and turned into a text with
`String.toList`.

* `decimal n`        the decimal digits of a number, without leading zeros;
* `trim p t`         `t` without the characters of `p` at its two ends;
* `joined sep ts`    the texts `ts` in one, `sep` between every two of them;
* `fields t`         the maximal separator-free stretches of `t`, in order;
* `fieldsUpTo n t`   the first `n - 1` fields of a text that starts with a field, and what comes
                     after them in one last piece, inner separators included;
* `lower`, `upper`   a text with all its ASCII letters in one case;
* `sameUpToCase`     two texts that differ in nothing but the case of ASCII letters.

The characters that trimming and splitting ask for are told by `isSeparator`, the six ASCII white
space characters, and by two Unicode properties, `isWhiteSpace` and `isControl`.
-/

namespace Ippcode

abbrev Text := List Char

namespace Text

/-! ## numbers -/

def decimal (n : Nat) : Text := Nat.toDigits 10 n

/-! ## trimming -/

def trim (p : Char → Bool) (t : Text) : Text :=
  ((t.dropWhile p).reverse.dropWhile p).reverse

theorem trim_nil (p : Char → Bool) : trim p [] = [] := rfl

/-! ## joining -/

def joined (sep : Text) (ts : List Text) : Text := sep.intercalate ts

theorem joined_nil (sep : Text) : joined sep [] = [] := rfl
theorem joined_singleton (sep t : Text) : joined sep [t] = t := by
  simp [joined, List.intercalate]
theorem joined_cons_cons (sep t u : Text) (ts : List Text) :
    joined sep (t :: u :: ts) = t ++ (sep ++ joined sep (u :: ts)) := by
  simp [joined, List.intercalate]

/-! ## separators

The words of a line of code are kept apart by space, tab, line feed, vertical tab, form feed and
carriage return; a no-break space or any other Unicode blank is a part of its word. -/

def isSeparator (c : Char) : Bool :=
  c == ' ' || c == '\t' || c == '\n' || c == '\x0b' || c == '\x0c' || c == '\r'

theorem isSeparator_iff {c : Char} :
    isSeparator c = true ↔ c ∈ [' ', '\t', '\n', '\x0b', '\x0c', '\r'] := by
  simp [isSeparator, or_assoc]

/-! ## all fields -/

def fields (t : Text) : List Text := (t.splitOnP isSeparator).filter (!·.isEmpty)

theorem fields_nil : fields [] = [] := by simp [fields]

/-! ## a limited number of fields -/

/-- the separator-free beginning of a text -/
def word (t : Text) : Text := t.takeWhile (!isSeparator ·)

/-- what follows the first word and the separators after it -/
def afterWord (t : Text) : Text := (t.dropWhile (!isSeparator ·)).dropWhile isSeparator

/-- At most `n` pieces: words from the left, and the last piece is all that remains. -/
def fieldsUpTo : Nat → Text → List Text
  | 0, _ => []
  | _ + 1, [] => []
  | 1, c :: t => [c :: t]
  | n + 2, c :: t => word (c :: t) :: fieldsUpTo (n + 1) (afterWord (c :: t))

theorem fieldsUpTo_zero (t : Text) : fieldsUpTo 0 t = [] := by
  unfold fieldsUpTo; rfl

theorem fieldsUpTo_nil (n : Nat) : fieldsUpTo n [] = [] := by
  cases n <;> unfold fieldsUpTo <;> rfl

theorem fieldsUpTo_one {t : Text} (h : t ≠ []) : fieldsUpTo 1 t = [t] := by
  cases t with
  | nil => exact absurd rfl h
  | cons c t => unfold fieldsUpTo; rfl

theorem fieldsUpTo_add_two (n : Nat) {t : Text} (h : t ≠ []) :
    fieldsUpTo (n + 2) t = word t :: fieldsUpTo (n + 1) (afterWord t) := by
  cases t with
  | nil => exact absurd rfl h
  | cons c t => rw [fieldsUpTo]

/-! ## letter case of the ASCII letters

Opcodes, the header and the names of log levels are read regardless of the case of the letters
`A`–`Z`.  No other character has a case here: `ſ` is not an `s`, and the kelvin sign
U+212A is not a `k`. -/

def lower (t : Text) : Text := t.map Char.toLower

def upper (t : Text) : Text := t.map Char.toUpper

theorem lower_nil : lower [] = [] := rfl
theorem lower_cons (c : Char) (t : Text) : lower (c :: t) = c.toLower :: lower t := rfl
theorem lower_append (a b : Text) : lower (a ++ b) = lower a ++ lower b := by
  simp [lower]
theorem length_lower (t : Text) : (lower t).length = t.length := by simp [lower]

theorem upper_nil : upper [] = [] := rfl
theorem upper_cons (c : Char) (t : Text) : upper (c :: t) = c.toUpper :: upper t := rfl

def sameUpToCase (a b : Text) : Bool := lower a == lower b

theorem sameUpToCase_iff {a b : Text} : sameUpToCase a b = true ↔ lower a = lower b := by
  simp [sameUpToCase]

theorem sameUpToCase_refl (a : Text) : sameUpToCase a a = true := by
  simp [sameUpToCase]

/-! ## two Unicode properties

`White_Space` has 25 characters, of which U+0009–U+000D, U+0020, U+0085 and U+00A0 are below
U+0100; the general category `Cc` is U+0000–U+001F and U+007F–U+009F.  Both sets are closed by the
stability policies of the standard, so the tables do not age. -/

/-- The code points of `White_Space`, as inclusive ranges in ascending order. -/
def whiteSpaceRanges : List (Nat × Nat) :=
  [(0x0009, 0x000D), (0x0020, 0x0020), (0x0085, 0x0085), (0x00A0, 0x00A0), (0x1680, 0x1680),
   (0x2000, 0x200A), (0x2028, 0x2029), (0x202F, 0x202F), (0x205F, 0x205F), (0x3000, 0x3000)]

def isWhiteSpace (c : Char) : Bool :=
  whiteSpaceRanges.any fun r => r.1 ≤ c.toNat && c.toNat ≤ r.2

def isControl (c : Char) : Bool :=
  c.toNat ≤ 0x1F || (0x7F ≤ c.toNat && c.toNat ≤ 0x9F)

theorem isControl_iff (c : Char) : isControl c = true ↔
    c.toNat ≤ 0x1F ∨ 0x7F ≤ c.toNat ∧ c.toNat ≤ 0x9F := by
  simp [isControl]

/-- the table holds 25 code points -/
example : (whiteSpaceRanges.map fun r => r.2 - r.1 + 1).sum = 25 := rfl

end Text

end Ippcode
