import Ippcode.Proofs.Analysis.Step
import Ippcode.Proofs.Instruction.Check

/-!
# An analysis further down

Two machines are fed the same lines.  The second one is `d` lines further down than the first and
has a program `p` in front of what the first one has pushed.  They stay so, line by line, and what
comes of the one follows from what comes of the other.

* `Fault.shift d f`      the fault `f`, `d` lines further down;
* `Program.append p q`   the instructions of `p`, then those of `q` with numbers that go on;
* `Ahead d p a b`        the two machines;
* `effect_add`           what a line brings does not depend on how far down it is;
* `Ahead.readAll`        the two machines stay as they are, and `Ahead.result` is the end.
-/

namespace Ippcode

open Source

/-! ## faults further down -/

/-- the same fault, `d` lines further down -/
def Fault.shift (d : Nat) : Fault → Fault
  | unreadable n reason => unreadable (n + d) reason
  | wrongHeader n expected found => wrongHeader (n + d) expected found
  | unknownOpcode n token => unknownOpcode (n + d) token
  | operandCount n opcode expected found => operandCount (n + d) opcode expected found
  | operandClass n opcode position token expected =>
    operandClass (n + d) opcode position token expected
  | f => f

/-- a fault that is on no line stays where it is -/
theorem Fault.shift_of_line?_eq_none {f : Fault} (h : f.line? = none) (d : Nat) :
    f.shift d = f := by
  cases f with
  | parameters | undelivered | missingHeader | internal => rfl
  | _ => cases h

/-! ## one program after another -/

namespace Program

/-- the instructions of `p`, and after them those of `q`, with numbers that go on -/
def append (p q : Program) : Program :=
  ⟨p.instructions ++ q.instructions.map fun i => { i with order := i.order + p.size }⟩

theorem toList_append (p q : Program) : (p.append q).toList
    = p.toList ++ q.toList.map fun i => { i with order := i.order + p.size } := by
  simp [append, toList]

theorem size_append (p q : Program) : (p.append q).size = p.size + q.size := by
  simp [append, size]

theorem append_empty (p : Program) : p.append empty = p := by
  simp [append, empty]

theorem empty_append (q : Program) : empty.append q = q := by
  simp [append, empty, size]

theorem append_push (p q : Program) (opcode : Text) (arguments : List Argument) :
    p.append (q.push opcode arguments) = (p.append q).push opcode arguments := by
  have horder : q.size + 1 + p.size = p.size + q.size + 1 := by omega
  apply ext_toList
  rw [toList_append, toList_push, toList_push, toList_append, size_append, List.map_append,
    List.append_assoc, List.map_singleton, horder]

end Program

/-! ## what depends on the line number -/

namespace Source

theorem readAfter_add (n d : Nat) (raw : Bytes) :
    readAfter (n + d) raw = (readAfter n raw).mapError (Fault.shift d) := by
  unfold readAfter
  cases lineText? raw with
  | some t => rfl
  | none =>
    rw [Nat.add_right_comm]
    rfl

theorem checkHeader_add (n d : Nat) (t : Text) :
    checkHeader (n + d) t = (checkHeader n t).mapError (Fault.shift d) := by
  unfold checkHeader
  split <;> rfl

namespace Statement

/-- the same statement, `d` lines further down -/
def shift (d : Nat) (s : Statement) : Statement := { s with line := s.line + d }

theorem ofLine?_add (n d : Nat) (t : Text) : ofLine? (n + d) t = (ofLine? n t).map (shift d) := by
  unfold ofLine?
  cases Text.fieldsUpTo maxFields (code t) <;> rfl

theorem readOperands_add (line d : Nat) (opcode : Text) (n : Nat) (cs : List OperandClass)
    (ts : List Text) : readOperands (line + d) opcode n cs ts
      = (readOperands line opcode n cs ts).mapError (Fault.shift d) := by
  induction cs generalizing n ts with
  | nil =>
    rw [readOperands_nil_left, readOperands_nil_left]
    rfl
  | cons c cs ih =>
    cases ts with
    | nil => rfl
    | cons t ts =>
      cases hr : c.read? t with
      | none =>
        rw [readOperands_cons_of_none hr, readOperands_cons_of_none hr]
        rfl
      | some a =>
        rw [readOperands_cons_of_some hr, readOperands_cons_of_some hr, ih]
        cases readOperands line opcode (n + 1) cs ts <;> rfl

/-- What is wrong with a statement does not depend on its line. -/
theorem check_shift (s : Statement) (d : Nat) :
    (s.shift d).check = s.check.mapError (Fault.shift d) := by
  have hl : Table.lookup? (s.shift d).opcode = Table.lookup? s.opcode := rfl
  cases he : Table.lookup? s.opcode with
  | none =>
    rw [check_of_unknown he, check_of_unknown (hl.trans he)]
    rfl
  | some e =>
    by_cases hn : s.operands.length = e.arity
    · have hr := readOperands_add s.line d e.opcode 1 e.operands s.operands
      rw [check_of_entry he hn, check_of_entry (hl.trans he) hn]
      show (readOperands (s.line + d) e.opcode 1 e.operands s.operands).map _ = _
      rw [hr]
      cases readOperands s.line e.opcode 1 e.operands s.operands <;> rfl
    · rw [check_of_count he hn, check_of_count (hl.trans he) hn]
      rfl

end Statement

end Source

theorem Phase.effect_add {d : Nat} {phase phase' : Phase}
    (h : phase.Matches (fun f f' => f' = f.shift d) phase') (n : Nat) (t : Text) :
    phase'.effect (n + d) t = (phase.effect n t).mapError (Fault.shift d) := by
  by_cases hc : code t = []
  · rw [effect_of_code_eq_nil hc, effect_of_code_eq_nil hc]
    rfl
  cases h with
  | preamble =>
    rw [effect_preamble hc, effect_preamble hc, checkHeader_add]
    cases checkHeader n (code t) <;> rfl
  | body =>
    obtain ⟨s, hs⟩ := Statement.exists_ofLine? n hc
    have hs' : Statement.ofLine? (n + d) t = some (s.shift d) := by
      rw [Statement.ofLine?_add, hs, Option.map_some]
    rw [effect_body hs, effect_body hs', Statement.check_shift]
    cases s.check <;> rfl
  | stopped => rfl

/-! ## the two machines -/

namespace Analysis

/-- `b` is `d` lines further down than `a`, with the program `p` in front -/
abbrev Ahead (d : Nat) (p : Program) : Analysis → Analysis → Prop :=
  Tracks d p.append fun f f' => f' = f.shift d

section

variable {d : Nat} {p : Program} {a b : Analysis}

/-- one more line -/
theorem Ahead.read (h : Ahead d p a b) (raw : Bytes) : Ahead d p (a.read raw) (b.read raw) := by
  refine Tracks.read p.append_push h fun _ => ?_
  rw [h.line_succ, h.line, readAfter_add]
  refine agree_mapError (fun t => ?_) (Fault.shift d) _
  rw [Phase.effect_add h.phase]
  exact agree_mapError Effect.Same.refl (Fault.shift d) _

/-- **The two machines stay as they are, whatever they read.** -/
theorem Ahead.readAll (h : Ahead d p a b) (ls : List Bytes) :
    Ahead d p (a.readAll ls) (b.readAll ls) := by
  induction ls generalizing a b with
  | nil => exact h
  | cons l ls ih => exact ih (h.read l)

/-- what comes of the second, by what comes of the first -/
theorem Ahead.result (h : Ahead d p a b) :
    b.result = (a.result.mapError (Fault.shift d)).map p.append :=
  eq_of_agree (Tracks.result h rfl)

end

end Analysis

end Ippcode
