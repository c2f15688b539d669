import Ippcode.Analysis

/-!
# The log

What a run has to tell, in order.  A record has a severity; a verbosity admits the records up to
one severity, or none at all.  The records of a run are the same at every verbosity, and a
verbosity only chooses among them.

* `Verbosity.ofSetting`  reads a user's setting: a count from 0 to 3, or a name in any letter case,
                         with blanks around it.  Where there is no setting, and for one that means
                         nothing, only errors are shown;
* `render v rs`          the records `rs` at the verbosity `v`;
* `Analysis.records`     the header, each instruction, and at the end of a source without fault how
                         much was read;
* `Journal`              the log as it is written: a record that the verbosity does not admit is
                         dropped when it comes.  `records_writeAll`: what is in a journal is what a
                         choice among all records would leave.
-/

namespace Ippcode

namespace Log

/-! ## severity and verbosity -/

/-- how much a record matters, from most to least -/
inductive Severity where
  | error
  | warning
  | info
  | debug
  | trace
deriving DecidableEq, Repr

namespace Severity

def name : Severity → Text
  | error => "ERROR".toList
  | warning => "WARN".toList
  | info => "INFO".toList
  | debug => "DEBUG".toList
  | trace => "TRACE".toList

def rank : Severity → Nat
  | error => 1
  | warning => 2
  | info => 3
  | debug => 4
  | trace => 5

end Severity

/-- which records are shown -/
inductive Verbosity where
  | off
  | upTo (severity : Severity)
deriving DecidableEq, Repr

namespace Verbosity

def name : Verbosity → Text
  | off => "OFF".toList
  | upTo s => s.name

def rank : Verbosity → Nat
  | off => 0
  | upTo s => s.rank

def admits (v : Verbosity) (s : Severity) : Bool := s.rank ≤ v.rank

theorem admits_error_of_ne_off {v : Verbosity} (h : v ≠ off) : v.admits .error = true := by
  cases v with
  | off => exact absurd rfl h
  | upTo s => cases s <;> rfl

/-- a more verbose level shows whatever a less verbose one shows -/
theorem admits_mono {v w : Verbosity} (h : v.rank ≤ w.rank) {s : Severity}
    (hs : v.admits s = true) : w.admits s = true :=
  decide_eq_true (Nat.le_trans (of_decide_eq_true hs) h)

/-- every level, from the least verbose on -/
def all : List Verbosity :=
  [off, upTo .error, upTo .warning, upTo .info, upTo .debug, upTo .trace]

def ofName? (t : Text) : Option Verbosity := all.find? fun v => v.name.sameUpToCase t

/-- the level that a setting asks for -/
def ofSetting (setting : Option Text) : Verbosity :=
  match setting.map (Text.trim Text.isWhiteSpace) with
  | none => upTo .error
  | some t =>
    if t = [] ∨ t = ['0'] then upTo .error
    else if t = ['1'] then upTo .warning
    else if t = ['2'] then upTo .info
    else if t = ['3'] then upTo .debug
    else (ofName? t).getD (upTo .error)

theorem ofSetting_none : ofSetting none = upTo .error := rfl

end Verbosity

/-! ## records -/

/-- which part of the program speaks -/
inductive Component where
  | command
  | lines
  | statements
deriving DecidableEq, Repr

def Component.name : Component → Text
  | command => "parse".toList
  | lines => "parse::analyzer::lexer".toList
  | statements => "parse::analyzer::parser".toList

structure Record where
  component : Component
  severity : Severity
  message : Text
deriving DecidableEq, Repr

/-- The line of a record: the component, the severity and the message.  The date and the time, which
stand in front of the three in brackets of their own, are left out: a run does not depend on when
it takes place. -/
def Record.line (r : Record) : Text :=
  '[' :: (r.component.name ++ ']' :: '[' :: (r.severity.name ++ ']' :: ' ' :: (r.message ++ ['\n'])))

def shown (v : Verbosity) (rs : List Record) : List Record :=
  rs.filter fun r => v.admits r.severity

theorem shown_nil (v : Verbosity) : shown v [] = [] := rfl
theorem shown_append (v : Verbosity) (rs qs : List Record) :
    shown v (rs ++ qs) = shown v rs ++ shown v qs := by
  simp [shown]

theorem mem_shown_iff {v : Verbosity} {rs : List Record} {r : Record} :
    r ∈ shown v rs ↔ r ∈ rs ∧ v.admits r.severity = true := List.mem_filter
theorem shown_of_admits {v : Verbosity} {r : Record} (h : v.admits r.severity = true) :
    shown v [r] = [r] := by
  simp [shown, h]
theorem shown_of_not_admits {v : Verbosity} {r : Record} (h : ¬ v.admits r.severity = true) :
    shown v [r] = [] := by
  simp [shown, h]

/-- the records that a verbosity admits, one after the other -/
def render (v : Verbosity) (rs : List Record) : Text := (shown v rs).flatMap Record.line

end Log

open Log

def Event.record : Event → Record
  | headerFound line code =>
    ⟨.lines, .debug, "found header ".toList ++ Fault.quoted code ++ " on line ".toList
      ++ Text.decimal line⟩
  | accepted line i =>
    ⟨.statements, .debug, "line ".toList ++ Text.decimal line ++ ": accepted #".toList
      ++ Text.decimal i.order ++ ' ' :: i.spelling⟩

namespace Analysis

/-- how much an analysis has read -/
def summary (a : Analysis) : Record :=
  ⟨.statements, .info, "parsed ".toList ++ Text.decimal a.program.size
    ++ " instruction(s) from ".toList ++ Text.decimal a.line ++ " line(s)".toList⟩

/-- what an analysis that is over has to tell -/
def records (a : Analysis) : List Record :=
  a.events.reverse.map Event.record ++
    match a.phase with
    | .body => [a.summary]
    | _ => []

end Analysis

def Program.listingRecord (p : Program) : Record :=
  ⟨.command, .debug, "program listing:\n".toList ++ p.listing⟩

/-- the last record of a run that fails -/
def Fault.record (f : Fault) : Record := ⟨.command, .error, f.message⟩

/-! ## the journal -/

namespace Log

structure Journal where
  verbosity : Verbosity
  /-- the records so far, the newest first -/
  written : List Record
deriving DecidableEq, Repr

namespace Journal

def opened (v : Verbosity) : Journal := ⟨v, []⟩

def isEnabled (j : Journal) (s : Severity) : Bool := j.verbosity.admits s

def write (j : Journal) (r : Record) : Journal :=
  if j.isEnabled r.severity then { j with written := r :: j.written } else j

def writeAll (j : Journal) (rs : List Record) : Journal := rs.foldl write j

/-- the records in the order in which they came -/
def records (j : Journal) : List Record := j.written.reverse

theorem records_opened (v : Verbosity) : (opened v).records = [] := rfl

theorem verbosity_write (j : Journal) (r : Record) : (j.write r).verbosity = j.verbosity := by
  unfold write
  split <;> rfl

theorem records_write (j : Journal) (r : Record) :
    (j.write r).records = j.records ++ shown j.verbosity [r] := by
  unfold write
  split
  · next h =>
    rw [shown_of_admits h]
    exact List.reverse_cons
  · next h =>
    rw [shown_of_not_admits h]
    exact (List.append_nil _).symm

theorem writeAll_nil (j : Journal) : j.writeAll [] = j := rfl
theorem writeAll_cons (j : Journal) (r : Record) (rs : List Record) :
    j.writeAll (r :: rs) = (j.write r).writeAll rs := rfl
theorem writeAll_append (j : Journal) (rs qs : List Record) :
    j.writeAll (rs ++ qs) = (j.writeAll rs).writeAll qs := by
  simp [writeAll, List.foldl_append]

/-- **What is in a journal is what a choice among all records would leave.** -/
theorem records_writeAll (j : Journal) (rs : List Record) :
    (j.writeAll rs).records = j.records ++ shown j.verbosity rs := by
  induction rs generalizing j with
  | nil => exact (List.append_nil _).symm
  | cons r rs ih =>
    rw [writeAll_cons, ih, records_write, verbosity_write, List.append_assoc, ← shown_append,
      List.singleton_append]

/-! ## the listing -/

def list (j : Journal) (p : Program) : Journal :=
  if j.isEnabled .debug then j.write p.listingRecord else j

/-- Where a listing is not put together, it would not have been written. -/
theorem list_eq_write (j : Journal) (p : Program) : j.list p = j.write p.listingRecord := by
  unfold list
  split
  · rfl
  · next h =>
    unfold write
    exact (if_neg h).symm

end Journal

end Log

end Ippcode
