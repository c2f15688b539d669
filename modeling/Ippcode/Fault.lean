import Ippcode.Text

/-!
# Faults

Every way a run can fail, by its cause.  The wording is in one place, `Fault.message`; the number
that a process reports is `Fault.exitCode`, which groups the causes:

* 10      the command line;
* 11, 12  input that cannot be read, output that cannot be written;
* 21      no header, or another line of code where the header has to be;
* 22      an opcode that the instruction set does not have;
* 23      operands that do not fit their opcode;
* 99      the program's own doing.
-/

namespace Ippcode

inductive Fault where
  /-- the command line asks for something that cannot be done -/
  | parameters (reason : Text)
  /-- a line of the source is no text -/
  | unreadable (line : Nat) (reason : Text)
  /-- the result cannot be delivered -/
  | undelivered (reason : Text)
  /-- the first line of code is not the header -/
  | wrongHeader (line : Nat) (expected found : Text)
  /-- the source has no line of code -/
  | missingHeader (expected : Text)
  /-- an opcode that is not in the instruction set, as it is spelled -/
  | unknownOpcode (line : Nat) (token : Text)
  /-- an opcode with too many or too few operands -/
  | operandCount (line : Nat) (opcode : Text) (expected found : Nat)
  /-- an operand outside the class that its position requires -/
  | operandClass (line : Nat) (opcode : Text) (position : Nat) (token expected : Text)
  /-- none of the user's doing -/
  | internal (reason : Text)
deriving DecidableEq, Repr

namespace Fault

def exitCode : Fault → Nat
  | parameters _ => 10
  | unreadable _ _ => 11
  | undelivered _ => 12
  | wrongHeader _ _ _ => 21
  | missingHeader _ => 21
  | unknownOpcode _ _ => 22
  | operandCount _ _ _ _ => 23
  | operandClass _ _ _ _ _ => 23
  | internal _ => 99

theorem exitCode_ne_zero (f : Fault) : f.exitCode ≠ 0 := by cases f <;> simp [exitCode]

def quoted (t : Text) : Text := "`".toList ++ t ++ "`".toList

/-- the line that a fault of the source is on, at the head of a message -/
def onLine (n : Nat) : Text := "line ".toList ++ Text.decimal n ++ ": ".toList

def message : Fault → Text
  | parameters reason => "invalid parameters: ".toList ++ reason
  | unreadable line reason =>
    "unable to read input on line ".toList ++ Text.decimal line ++ ": ".toList ++ reason
  | undelivered reason => "unable to write output: ".toList ++ reason
  | wrongHeader line expected found =>
    onLine line ++ "invalid header, expected ".toList ++ quoted expected ++ ", got ".toList
      ++ quoted found
  | missingHeader expected =>
    "missing header, reached end of input before ".toList ++ quoted expected
  | unknownOpcode line token => onLine line ++ "unknown opcode ".toList ++ quoted token
  | operandCount line opcode expected found =>
    onLine line ++ opcode ++ " expects ".toList ++ Text.decimal expected
      ++ " argument(s), got ".toList ++ Text.decimal found
  | operandClass line opcode position token expected =>
    onLine line ++ opcode ++ " argument ".toList ++ Text.decimal position ++ " ".toList
      ++ quoted token ++ " is not a valid ".toList ++ expected
  | internal reason => "internal error: ".toList ++ reason

/-- the line of the source that a fault names, if it names one -/
def line? : Fault → Option Nat
  | unreadable line _ => some line
  | wrongHeader line _ _ => some line
  | unknownOpcode line _ => some line
  | operandCount line _ _ _ => some line
  | operandClass line _ _ _ _ => some line
  | _ => none

/-- the document cannot be put into words; no program brings this about -/
def unprintable : Fault := internal "failed to format the program document".toList

end Fault

end Ippcode
