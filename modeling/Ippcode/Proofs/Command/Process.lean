import Mathlib.Data.List.Basic
import Mathlib.Data.List.Induction
import Ippcode.Command.Process
import Ippcode.Proofs.Analysis.Step

/-!
# What a process leaves behind

A process tells, under any setting, what the run has to tell that belongs to it.

* `Outcome.report v o`   what is left of a run at one verbosity;
* `Session.readAll_opened`   a session that writes down its steps at once has the analysis and the
                         journal that there would be if they were written down at the end;
* `process_eq`           a process leaves behind what is left of its run.
-/

namespace Ippcode

open Source Log

/-! ## steps that are forgotten -/

namespace Analysis

/-- the machine with older steps to tell -/
def remind (a : Analysis) (es : List Event) : Analysis := { a with events := a.events ++ es }

/-- the machine with no steps to tell -/
def forget (a : Analysis) : Analysis := { a with events := [] }

theorem remind_forget (a : Analysis) : a.forget.remind a.events = a := rfl
theorem forget_remind (a : Analysis) (es : List Event) : (a.remind es).forget = a.forget := rfl
theorem result_forget (a : Analysis) : a.forget.result = a.result := rfl
theorem summary_forget (a : Analysis) : a.forget.summary = a.summary := rfl

section

variable (a : Analysis) (es : List Event)

theorem line_remind : (a.remind es).line = a.line := rfl

theorem take_remind (e : Effect) : (a.remind es).take e = (a.take e).remind es := by
  cases e <;> rfl

theorem follow_remind (r : Except Fault Effect) :
    (a.remind es).follow r = (a.follow r).remind es := by
  cases r with
  | ok e => exact take_remind a es e
  | error f => rfl

theorem turn_remind (r : Except Fault Text) : (a.remind es).turn r = (a.turn r).remind es := by
  cases r with
  | ok t => exact follow_remind a es _
  | error f => rfl

/-- What there is to tell has no part in what a machine does. -/
theorem read_remind (raw : Bytes) : (a.remind es).read raw = (a.read raw).remind es := by
  by_cases ha : a.phase.Stopped
  · obtain ⟨f, ha⟩ := ha
    rw [read_of_stopped ha, read_of_stopped (a := a.remind es) ha]
  · rw [read_eq_turn ha, read_eq_turn (a := a.remind es) ha, line_remind, turn_remind]

/-- one more line, by what the machine does on it once its steps are told -/
theorem read_eq_remind (raw : Bytes) : a.read raw = (a.forget.read raw).remind a.events := by
  rw [← read_remind, remind_forget]

end

end Analysis

/-! ## sessions -/

theorem Log.Journal.writeAll_concat (j : Journal) (rs : List Record) (r : Record) :
    (j.writeAll rs).write r = j.writeAll (rs ++ [r]) := by
  rw [Journal.writeAll_append]
  rfl

namespace Session

/-- **Writing down each step at once leaves the same journal as writing down all at the end.** -/
theorem readAll_opened (j : Journal) (ls : List Bytes) : (opened j).readAll ls =
    ⟨(Analysis.start.readAll ls).forget,
      j.writeAll ((Analysis.start.readAll ls).events.reverse.map Event.record)⟩ := by
  induction ls using List.reverseRecOn with
  | nil => rfl
  | append_singleton ls l ih =>
    let a := Analysis.start.readAll ls
    have hread : Analysis.start.readAll (ls ++ [l]) = (a.forget.read l).remind a.events := by
      rw [Analysis.readAll_append]
      exact a.read_eq_remind l
    have hevents : ((a.forget.read l).remind a.events).events.reverse
        = a.events.reverse ++ (a.forget.read l).events.reverse := List.reverse_append
    rw [readAll_concat, ih, hread, Analysis.forget_remind, hevents, List.map_append,
      Journal.writeAll_append]
    rfl

end Session

theorem parseIn_eq (j : Journal) (bs : Bytes) :
    parseIn j bs = (parse bs, j.writeAll (Analysis.ofSource bs).records) := by
  rw [parseIn, Session.readAll_opened, parse, Analysis.ofSource]
  generalize Analysis.start.readAll (breakLines bs) = a
  unfold Session.close Analysis.records
  rw [Analysis.result_forget, Analysis.summary_forget]
  unfold Analysis.result
  cases a.phase with
  | body =>
    rw [← Journal.writeAll_concat]
  | preamble => rw [List.append_nil]
  | stopped f => rw [List.append_nil]

/-- what an analysis has to tell: its steps, and how much it has read -/
theorem Analysis.mem_records (a : Analysis) {r : Record} (h : r ∈ a.records) :
    (∃ e : Event, r = e.record) ∨ r = a.summary := by
  rcases List.mem_append.mp h with h | h
  · obtain ⟨e, -, rfl⟩ := List.mem_map.mp h
    exact .inl ⟨e, rfl⟩
  · cases hp : a.phase with
    | body =>
      rw [hp, List.mem_singleton] at h
      exact .inr h
    | preamble =>
      rw [hp] at h
      cases h
    | stopped f =>
      rw [hp] at h
      cases h

/-! ## reports -/

/-- what is left of a run at one verbosity -/
def Outcome.report (o : Outcome) (v : Verbosity) : Report := ⟨o.code, o.stdout, shown v o.records⟩

theorem Outcome.stderr_report (o : Outcome) (v : Verbosity) : (o.report v).stderr = o.stderr v := rfl

namespace Report

variable (v : Verbosity) (rs : List Record)

theorem failed_eq (t : Text) (f : Fault) :
    failed ((Journal.opened v).writeAll rs) t f = (Outcome.failed rs t f).report v := by
  rw [failed, Journal.writeAll_concat, Journal.records_writeAll]
  rfl

theorem delivering_eq (out : Sink) (t : Text) :
    delivering ((Journal.opened v).writeAll rs) out t = (Outcome.delivering rs out t).report v := by
  unfold delivering Outcome.delivering
  cases out.delivery t with
  | ok u =>
    show (⟨0, out.taken t, ((Journal.opened v).writeAll rs).records⟩ : Report) = _
    rw [Journal.records_writeAll]
    rfl
  | error f => exact failed_eq v rs (out.taken t) f

end Report

/-- **A process leaves behind what is left of its run.** -/
theorem process_eq (setting : Option Text) (arguments : List Bytes) (input : Bytes) (out : Sink) :
    process setting arguments input out
      = (run arguments input out).report (.ofSetting setting) := by
  cases hc : Command.ofArguments arguments with
  | error f =>
    rw [process_of_error hc, run_of_error hc]
    exact Report.failed_eq _ [] [] f
  | ok c =>
    cases c with
    | help =>
      rw [process_of_help hc, run_of_help hc]
      exact Report.delivering_eq _ [] out helpText
    | analyze =>
      have hparse := parseIn_eq (.opened (.ofSetting setting)) input
      cases hp : parse input with
      | error f =>
        rw [hp] at hparse
        rw [process_of_fault hc hparse, run_of_analyze hc, analyzeTo_of_error hp]
        exact Report.failed_eq _ _ [] f
      | ok p =>
        rw [hp] at hparse
        rw [process_of_program hc hparse, run_of_analyze hc, analyzeTo_of_ok hp,
          Journal.list_eq_write, Journal.writeAll_concat]
        exact Report.delivering_eq _ _ out p.document

end Ippcode
