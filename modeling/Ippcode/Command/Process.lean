import Ippcode.Command.Arguments
import Ippcode.Log
import Ippcode.Sink

/-!
# Runs and processes

A run goes from the command line, the input and the place for the output to the exit code, the text
that is delivered and the records of the log.  Nothing is delivered before the whole input is known
to have no fault.

A process is a run under a setting of its log.  What it has to tell is written while it goes on:
each line of the source before the next one is read, and the listing before the document.  Unlike
a run, it does not have the records that its setting leaves out.

* `run`, `Outcome`      a run, with all its records; `Outcome.stderr` is the log at one verbosity,
                        and code and output do not depend on it;
* `Session`             an analysis and the journal that goes with it;
* `process`, `Report`   a process, and what it leaves behind.
-/

namespace Ippcode

open Log

/-! ## runs -/

structure Outcome where
  code : Nat
  stdout : Text
  records : List Record
deriving DecidableEq, Repr

namespace Outcome

/-- the log of a run -/
def stderr (o : Outcome) (v : Verbosity) : Text := render v o.records

/-- a run that fails, after some records -/
def failed (records : List Record) (stdout : Text) (f : Fault) : Outcome :=
  ⟨f.exitCode, stdout, records ++ [f.record]⟩

/-- a run that has a text to deliver, after some records -/
def delivering (records : List Record) (out : Sink) (t : Text) : Outcome :=
  match out.delivery t with
  | .ok () => ⟨0, out.taken t, records⟩
  | .error f => failed records (out.taken t) f

end Outcome

/-- analyses a source and delivers the document of its program -/
def analyzeTo (out : Sink) (input : Bytes) : Outcome :=
  let a := Analysis.ofSource input
  match a.result with
  | .error f => .failed a.records [] f
  | .ok p => .delivering (a.records ++ [p.listingRecord]) out p.document

theorem analyzeTo_of_error {input : Bytes} {f : Fault} (h : parse input = .error f) (out : Sink) :
    analyzeTo out input = .failed (Analysis.ofSource input).records [] f := by
  rw [parse] at h
  simp only [analyzeTo, h]

theorem analyzeTo_of_ok {input : Bytes} {p : Program} (h : parse input = .ok p) (out : Sink) :
    analyzeTo out input
      = .delivering ((Analysis.ofSource input).records ++ [p.listingRecord]) out p.document := by
  rw [parse] at h
  simp only [analyzeTo, h]

def run (arguments : List Bytes) (input : Bytes) (out : Sink) : Outcome :=
  match Command.ofArguments arguments with
  | .error f => .failed [] [] f
  | .ok .help => .delivering [] out helpText
  | .ok .analyze => analyzeTo out input

theorem run_of_error {arguments : List Bytes} {f : Fault}
    (h : Command.ofArguments arguments = .error f) (input : Bytes) (out : Sink) :
    run arguments input out = .failed [] [] f := by
  simp [run, h]

theorem run_of_help {arguments : List Bytes} (h : Command.ofArguments arguments = .ok .help)
    (input : Bytes) (out : Sink) : run arguments input out = .delivering [] out helpText := by
  simp [run, h]

theorem run_of_analyze {arguments : List Bytes}
    (h : Command.ofArguments arguments = .ok .analyze) (input : Bytes) (out : Sink) :
    run arguments input out = analyzeTo out input := by
  simp [run, h]

/-! ## processes -/

/-- an analysis whose steps are written down as they are made -/
structure Session where
  analysis : Analysis
  journal : Journal
deriving DecidableEq, Repr

namespace Session

def opened (j : Journal) : Session := ⟨.start, j⟩

/-- one more line, and at once what there is to tell of it -/
def read (s : Session) (raw : Bytes) : Session :=
  let a := s.analysis.read raw
  ⟨{ a with events := [] }, s.journal.writeAll (a.events.reverse.map Event.record)⟩

def readAll (s : Session) (ls : List Bytes) : Session := ls.foldl read s

theorem readAll_nil (s : Session) : s.readAll [] = s := rfl
theorem readAll_cons (s : Session) (l : Bytes) (ls : List Bytes) :
    s.readAll (l :: ls) = (s.read l).readAll ls := rfl
theorem readAll_concat (s : Session) (ls : List Bytes) (l : Bytes) :
    s.readAll (ls ++ [l]) = (s.readAll ls).read l := by
  simp [readAll, List.foldl_append]

/-- the end of a session: a program is summed up, a fault is left to whoever wanted the program -/
def close (s : Session) : Except Fault Program × Journal :=
  match s.analysis.result with
  | .ok p => (.ok p, s.journal.write s.analysis.summary)
  | .error f => (.error f, s.journal)

end Session

/-- the program of a source or its fault, and the journal after it -/
def parseIn (j : Journal) (bs : Bytes) : Except Fault Program × Journal :=
  ((Session.opened j).readAll (Source.breakLines bs)).close

/-- what a process leaves behind -/
structure Report where
  code : Nat
  stdout : Text
  /-- the records that were written -/
  log : List Record
deriving DecidableEq, Repr

namespace Report

def stderr (r : Report) : Text := r.log.flatMap Record.line

/-- the end of a process that fails -/
def failed (j : Journal) (stdout : Text) (f : Fault) : Report :=
  ⟨f.exitCode, stdout, (j.write f.record).records⟩

/-- the end of a process that has a text to deliver -/
def delivering (j : Journal) (out : Sink) (t : Text) : Report :=
  match out.delivery t with
  | .ok () => ⟨0, out.taken t, j.records⟩
  | .error f => failed j (out.taken t) f

end Report

def process (setting : Option Text) (arguments : List Bytes) (input : Bytes) (out : Sink) :
    Report :=
  let j := Journal.opened (.ofSetting setting)
  match Command.ofArguments arguments with
  | .error f => .failed j [] f
  | .ok .help => .delivering j out helpText
  | .ok .analyze =>
    match parseIn j input with
    | (.error f, j) => .failed j [] f
    | (.ok p, j) => .delivering (j.list p) out p.document

section

variable {setting : Option Text} {arguments : List Bytes} {input : Bytes} {out : Sink}

theorem process_of_error {f : Fault} (h : Command.ofArguments arguments = .error f) :
    process setting arguments input out = .failed (.opened (.ofSetting setting)) [] f := by
  simp only [process, h]

theorem process_of_help (h : Command.ofArguments arguments = .ok .help) :
    process setting arguments input out
      = .delivering (.opened (.ofSetting setting)) out helpText := by
  simp only [process, h]

theorem process_of_fault (h : Command.ofArguments arguments = .ok .analyze) {f : Fault}
    {j : Journal} (hp : parseIn (.opened (.ofSetting setting)) input = (.error f, j)) :
    process setting arguments input out = .failed j [] f := by
  simp only [process, h, hp]

theorem process_of_program (h : Command.ofArguments arguments = .ok .analyze) {p : Program}
    {j : Journal} (hp : parseIn (.opened (.ofSetting setting)) input = (.ok p, j)) :
    process setting arguments input out = .delivering (j.list p) out p.document := by
  simp only [process, h, hp]

end

end Ippcode
