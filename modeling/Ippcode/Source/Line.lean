import Ippcode.Utf8
import Ippcode.Fault

/-!
# The lines of a source

A source is a byte string.  It is cut into lines before anything is known about its text, so that
a line that is no text spoils nothing but itself.

* `breakLines bs`   the lines of `bs`, each with its line feed; the last one may lack it, and an
                    empty rest is no line.  `flatten_breakLines`: together the lines are `bs`;
* `chomp t`         a line without its line end, LF or CR LF;
* `lineText? raw`   the text of a line, if its bytes are UTF-8;
* `code line`       the code alone; empty on a blank line and on one that is only a comment;
* `checkHeader`     the first code of a source has to be the header, in any letter case;
* `Statement`       what the code on any other line is, as it is spelled.
-/

namespace Ippcode.Source

/-! ## physical lines -/

def lineFeed : UInt8 := 0x0A

/-- one byte in front of the lines that follow it -/
def consByte (b : UInt8) : List Bytes → List Bytes
  | [] => [[b]]
  | l :: ls => if b = lineFeed then [b] :: l :: ls else (b :: l) :: ls

def breakLines (bs : Bytes) : List Bytes := bs.foldr consByte []

theorem breakLines_nil : breakLines [] = [] := rfl
theorem breakLines_cons (b : UInt8) (bs : Bytes) :
    breakLines (b :: bs) = consByte b (breakLines bs) := rfl

theorem flatten_consByte (b : UInt8) (ls : List Bytes) :
    (consByte b ls).flatten = b :: ls.flatten := by
  cases ls with
  | nil => rfl
  | cons l ls => simp only [consByte]; split <;> simp

theorem consByte_lineFeed (ls : List Bytes) : consByte lineFeed ls = [lineFeed] :: ls := by
  cases ls <;> simp [consByte]

theorem flatten_breakLines (bs : Bytes) : (breakLines bs).flatten = bs := by
  induction bs with
  | nil => rfl
  | cons b bs ih => rw [breakLines_cons, flatten_consByte, ih]

/-- Only the last line may lack its line feed: a source that ends with one can be read on. -/
theorem breakLines_append_lineFeed (a b : Bytes) :
    breakLines (a ++ lineFeed :: b) = breakLines (a ++ [lineFeed]) ++ breakLines b := by
  induction a with
  | nil => simp [breakLines_cons, consByte_lineFeed, breakLines_nil]
  | cons x a ih =>
    have hne : breakLines (a ++ [lineFeed]) ≠ [] := by
      intro h
      have := flatten_breakLines (a ++ [lineFeed])
      rw [h] at this
      simp at this
    rw [List.cons_append, List.cons_append, breakLines_cons, breakLines_cons, ih]
    obtain ⟨l, ls, h⟩ := List.exists_cons_of_ne_nil hne
    rw [h]
    simp only [List.cons_append, consByte]
    split <;> simp

/-! ## the text of a line -/

def chomp (t : Text) : Text :=
  if t.getLast? = some '\n' then
    if t.dropLast.getLast? = some '\r' then t.dropLast.dropLast else t.dropLast
  else t

theorem chomp_nil : chomp [] = [] := rfl

theorem chomp_append_crlf (t : Text) : chomp (t ++ ['\r', '\n']) = t := by
  rw [show t ++ ['\r', '\n'] = (t ++ ['\r']) ++ ['\n'] by simp]
  unfold chomp
  simp only [List.getLast?_concat, List.dropLast_concat, if_true]

theorem chomp_append_lf {t : Text} (h : t.getLast? ≠ some '\r') : chomp (t ++ ['\n']) = t := by
  unfold chomp
  simp only [List.getLast?_concat, List.dropLast_concat, if_true, if_neg h]

theorem chomp_of_unended {t : Text} (h : t.getLast? ≠ some '\n') : chomp t = t := by
  unfold chomp
  rw [if_neg h]

def lineText? (raw : Bytes) : Option Text := (Utf8.decode? raw).map chomp

/-- why a line cannot be read -/
def notUtf8 : Text := "stream did not contain valid UTF-8".toList

/-- The text of the line after line `n`, or the fault of that line. -/
def readAfter (n : Nat) (raw : Bytes) : Except Fault Text :=
  match lineText? raw with
  | some t => .ok t
  | none => .error (.unreadable (n + 1) notUtf8)

/-! ## the code on a line

A line of source is code, blanks around it, and maybe a comment that runs from the first `#` to
the end of the line. -/

def commentMark : Char := '#'

/-- the code on a line, without comment and surrounding separators -/
def code (line : Text) : Text := Text.trim Text.isSeparator (line.takeWhile (· ≠ commentMark))

theorem code_nil : code [] = [] := rfl

/-- nothing after a comment mark matters -/
theorem code_append_comment (line t : Text) : code (line ++ commentMark :: t) = code line := by
  have h : (line ++ commentMark :: t).takeWhile (· ≠ commentMark)
      = line.takeWhile (· ≠ commentMark) := by
    induction line with
    | nil => simp
    | cons c line ih =>
      rw [List.cons_append, List.takeWhile_cons, List.takeWhile_cons, ih]
  rw [code, h, code]

/-! ## the header -/

def header : Text := ".IPPcode22".toList

/-- The first code of a source, found on line `n`, has to be the header. -/
def checkHeader (n : Nat) (found : Text) : Except Fault Unit :=
  if found.sameUpToCase header then .ok () else .error (.wrongHeader n header found)

theorem checkHeader_eq_ok_iff (n : Nat) (found : Text) :
    checkHeader n found = .ok () ↔ found.sameUpToCase header = true := by
  unfold checkHeader
  split <;> simp [*]

/-! ## statements

A line of code is one statement: an opcode and its operands, kept apart by separators.  No opcode
takes more than three operands, so what follows the second operand is taken as the third, with
its inner separators; such an operand belongs to no class, and the surplus is found out later. -/

/-- the opcode and the operands on a line, as they are spelled -/
structure Statement where
  line : Nat
  opcode : Text
  operands : List Text
deriving DecidableEq, Repr

namespace Statement

def maxFields : Nat := 4

/-- The statement on line `n`; none where the line has no code. -/
def ofLine? (n : Nat) (t : Text) : Option Statement :=
  match Text.fieldsUpTo maxFields (code t) with
  | [] => none
  | opcode :: operands => some ⟨n, opcode, operands⟩

theorem ofLine?_of_code_eq_nil {t : Text} (h : code t = []) (n : Nat) : ofLine? n t = none := by
  simp [ofLine?, h, Text.fieldsUpTo_nil]

theorem ofLine?_eq_none_iff {n : Nat} {t : Text} : ofLine? n t = none ↔ code t = [] := by
  refine ⟨fun h => ?_, fun h => ofLine?_of_code_eq_nil h n⟩
  by_cases hc : code t = []
  · exact hc
  · rw [ofLine?, maxFields, Text.fieldsUpTo_add_two _ hc] at h
    simp at h

end Statement

end Ippcode.Source
