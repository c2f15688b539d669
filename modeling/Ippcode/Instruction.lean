import Ippcode.Operand.Class
import Ippcode.Source.Line

/-!
# The instruction set

The table gives each opcode the classes of its operands, in order.  Opcodes are written in
capitals here; in source their letter case is free.

`Statement.check` gives the opcode of a statement in capitals and its arguments, or the first of
these faults: the opcode is not in the table; the number of operands is not the one it asks for;
an operand, from the left, is outside its class.
-/

namespace Ippcode

/-! ## the table -/

/-- an opcode and what it asks for at each position -/
structure Entry where
  opcode : Text
  operands : List OperandClass
deriving DecidableEq, Repr

namespace Entry

def arity (e : Entry) : Nat := e.operands.length

end Entry

namespace Table

/-- opcodes that ask for the same operands -/
def group (operands : List OperandClass) (opcodes : List String) : List Entry :=
  opcodes.map fun name => ⟨name.toList, operands⟩

/-- The 35 opcodes.  A registry of them has, in each row, a key in small letters and apart from it
the canonical name.  The key is the name in small letters in all 35 rows; so the name alone is kept
here, and a token is compared with it up to letter case. -/
def entries : List Entry :=
  group [] ["CREATEFRAME", "PUSHFRAME", "POPFRAME", "RETURN", "BREAK"]
  ++ group [.var] ["DEFVAR", "POPS"]
  ++ group [.symbol] ["PUSHS", "WRITE", "EXIT", "DPRINT"]
  ++ group [.label] ["CALL", "LABEL", "JUMP"]
  ++ group [.var, .type] ["READ"]
  ++ group [.var, .symbol] ["MOVE", "NOT", "INT2CHAR", "STRLEN", "TYPE"]
  ++ group [.var, .symbol, .symbol]
      ["ADD", "SUB", "MUL", "IDIV", "LT", "GT", "EQ", "AND", "OR", "STRI2INT", "CONCAT",
       "GETCHAR", "SETCHAR"]
  ++ group [.label, .symbol, .symbol] ["JUMPIFEQ", "JUMPIFNEQ"]

/-- the entry for an opcode, in whatever letter case it is spelled -/
def lookup? (token : Text) : Option Entry :=
  entries.find? fun e => e.opcode.sameUpToCase token

theorem mem_entries_of_lookup? {token : Text} {e : Entry} (h : lookup? token = some e) :
    e ∈ entries := List.mem_of_find?_eq_some h

theorem sameUpToCase_of_lookup? {token : Text} {e : Entry} (h : lookup? token = some e) :
    e.opcode.sameUpToCase token = true := by
  simpa using List.find?_some h

/-- the entry depends on a token only up to letter case -/
theorem lookup?_congr {a b : Text} (h : a.sameUpToCase b = true) : lookup? a = lookup? b := by
  rw [Text.sameUpToCase_iff] at h
  simp only [lookup?, Text.sameUpToCase, h]

theorem lookup?_eq_none_iff {token : Text} :
    lookup? token = none ↔ ∀ e ∈ entries, e.opcode.sameUpToCase token = false := by
  simp [lookup?]

end Table

/-! ## checking a statement -/

namespace Source.Statement

/-- Reads the words from position `n` on, each as one of the class asked for there. -/
def readOperands (line : Nat) (opcode : Text) :
    Nat → List OperandClass → List Text → Except Fault (List Argument)
  | n, c :: cs, t :: ts =>
    match c.read? t with
    | none => .error (.operandClass line opcode n t c.name)
    | some a =>
      match readOperands line opcode (n + 1) cs ts with
      | .ok as => .ok (a :: as)
      | .error f => .error f
  | _, _, _ => .ok []

theorem readOperands_nil_left (line : Nat) (opcode : Text) (n : Nat) (ts : List Text) :
    readOperands line opcode n [] ts = .ok [] := by
  unfold readOperands; rfl

theorem readOperands_cons_of_none {c : OperandClass} {t : Text} (h : c.read? t = none)
    (line : Nat) (opcode : Text) (n : Nat) (cs : List OperandClass) (ts : List Text) :
    readOperands line opcode n (c :: cs) (t :: ts)
      = .error (.operandClass line opcode n t c.name) := by
  rw [readOperands, h]

theorem readOperands_cons_of_some {c : OperandClass} {t : Text} {a : Argument}
    (h : c.read? t = some a) (line : Nat) (opcode : Text) (n : Nat) (cs : List OperandClass)
    (ts : List Text) :
    readOperands line opcode n (c :: cs) (t :: ts)
      = (readOperands line opcode (n + 1) cs ts).map (a :: ·) := by
  rw [readOperands, h]
  cases readOperands line opcode (n + 1) cs ts <;> rfl

def check (s : Statement) : Except Fault (Text × List Argument) :=
  match Table.lookup? s.opcode with
  | none => .error (.unknownOpcode s.line s.opcode)
  | some e =>
    if s.operands.length ≠ e.arity then
      .error (.operandCount s.line e.opcode e.arity s.operands.length)
    else
      match readOperands s.line e.opcode 1 e.operands s.operands with
      | .ok arguments => .ok (e.opcode, arguments)
      | .error f => .error f

theorem check_of_unknown {s : Statement} (h : Table.lookup? s.opcode = none) :
    s.check = .error (.unknownOpcode s.line s.opcode) := by
  rw [check, h]

theorem check_of_count {s : Statement} {e : Entry} (h : Table.lookup? s.opcode = some e)
    (hn : s.operands.length ≠ e.arity) :
    s.check = .error (.operandCount s.line e.opcode e.arity s.operands.length) := by
  rw [check, h]
  simp only [ne_eq, hn, not_false_eq_true, if_true]

end Source.Statement

end Ippcode
