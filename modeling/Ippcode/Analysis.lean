import Ippcode.Instruction
import Ippcode.Program

/-!
# The analysis of a source

A machine that is fed the physical lines of a source, one after the other.  It looks for the
header, then pushes one instruction on its program for every line with code, and comes to rest at
the first fault: whatever follows, readable or not, leaves it as it is.

* `Analysis.read a raw`    the machine after one more line;
* `Analysis.readAll a ls`  the machine after more lines; `readAll_append` says that it does not
                           matter how they are divided;
* `Analysis.result a`      the program, or the fault;
* `parse bs`               the result for a whole source.

The machine also keeps what a log has to tell of it (`Event`).  A reader that is asked for the
header and then for line after line is led to the same result (`parse_eq_readProgram`).
-/

namespace Ippcode

open Source

/-- what an analysis is about to meet -/
inductive Phase where
  /-- the header has not been found yet -/
  | preamble
  /-- every line with code is a statement -/
  | body
  /-- nothing more is read -/
  | stopped (fault : Fault)
deriving DecidableEq, Repr

/-- a step forward in an analysis -/
inductive Event where
  | headerFound (line : Nat) (code : Text)
  | accepted (line : Nat) (instruction : Instruction)
deriving DecidableEq, Repr

structure Analysis where
  /-- the number of lines read -/
  line : Nat
  phase : Phase
  program : Program
  /-- the steps so far, the newest first -/
  events : List Event
deriving DecidableEq, Repr

namespace Analysis

def start : Analysis := ⟨0, .preamble, .empty, []⟩

/-! ## one line -/

def stop (a : Analysis) (f : Fault) : Analysis := { a with phase := .stopped f }

/-- a line that says nothing -/
def pass (a : Analysis) : Analysis := { a with line := a.line + 1 }

/-- a line of text before or at the header -/
def seekHeader (a : Analysis) (t : Text) : Analysis :=
  if code t = [] then a.pass
  else
    match checkHeader (a.line + 1) (code t) with
    | .ok () =>
      ⟨a.line + 1, .body, a.program, .headerFound (a.line + 1) (code t) :: a.events⟩
    | .error f => a.pass.stop f

/-- a line of text after the header -/
def readStatement (a : Analysis) (t : Text) : Analysis :=
  match Statement.ofLine? (a.line + 1) t with
  | none => a.pass
  | some s =>
    match s.check with
    | .ok (opcode, arguments) =>
      let event := Event.accepted (a.line + 1) (a.program.numbered opcode arguments)
      ⟨a.line + 1, a.phase, a.program.push opcode arguments, event :: a.events⟩
    | .error f => a.pass.stop f

def read (a : Analysis) (raw : Bytes) : Analysis :=
  match a.phase with
  | .stopped _ => a
  | .preamble =>
    match readAfter a.line raw with
    | .ok t => a.seekHeader t
    | .error f => a.stop f
  | .body =>
    match readAfter a.line raw with
    | .ok t => a.readStatement t
    | .error f => a.stop f

theorem read_of_stopped {a : Analysis} {f : Fault} (h : a.phase = .stopped f) (raw : Bytes) :
    a.read raw = a := by
  simp [read, h]

/-! ## many lines -/

def readAll (a : Analysis) (ls : List Bytes) : Analysis := ls.foldl read a

theorem readAll_nil (a : Analysis) : a.readAll [] = a := rfl
theorem readAll_cons (a : Analysis) (l : Bytes) (ls : List Bytes) :
    a.readAll (l :: ls) = (a.read l).readAll ls := rfl
theorem readAll_append (a : Analysis) (ls ms : List Bytes) :
    a.readAll (ls ++ ms) = (a.readAll ls).readAll ms := by
  simp [readAll, List.foldl_append]

theorem readAll_of_stopped {a : Analysis} {f : Fault} (h : a.phase = .stopped f)
    (ls : List Bytes) : a.readAll ls = a := by
  induction ls with
  | nil => rfl
  | cons l ls ih => rw [readAll_cons, read_of_stopped h, ih]

def ofSource (bs : Bytes) : Analysis := start.readAll (breakLines bs)

/-- the program of an analysis that is over, or its fault -/
def result (a : Analysis) : Except Fault Program :=
  match a.phase with
  | .preamble => .error (.missingHeader header)
  | .body => .ok a.program
  | .stopped f => .error f

end Analysis

def parse (bs : Bytes) : Except Fault Program := (Analysis.ofSource bs).result

theorem parse_nil : parse [] = .error (.missingHeader header) := rfl

end Ippcode
