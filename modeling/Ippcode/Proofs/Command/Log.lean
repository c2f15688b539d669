import Ippcode.Proofs.Command.Process

/-!
# The setting of the log

* `shown_sublist`        a more verbose level leaves out less, and moves nothing;
* `mem_run_of_isListing` a run has the listing of a program that was read, and no other;
* `process_log`          the setting chooses among the records of a run, and decides nothing else.
-/

namespace Ippcode

open Log

/-! ## records at different levels -/

namespace Log

/-- A more verbose level leaves out less, and moves nothing. -/
theorem shown_sublist {v w : Verbosity} (h : v.rank ≤ w.rank) (rs : List Record) :
    (shown v rs).Sublist (shown w rs) :=
  List.monotone_filter_right rs fun _ hr => Verbosity.admits_mono h hr

theorem Verbosity.admits_debug_iff {v : Verbosity} :
    v.admits .debug = true ↔ v = .upTo .debug ∨ v = .upTo .trace := by
  cases v with
  | off => decide
  | upTo s => cases s <;> decide

/-- the records that are a program's listing -/
def Record.IsListing (r : Record) : Prop := "program listing:\n".toList <+: r.message

theorem Record.IsListing.take_two {r : Record} (h : r.IsListing) :
    r.message.take 2 = ['p', 'r'] := by
  obtain ⟨t, ht⟩ := h
  rw [← ht]
  rfl

end Log

theorem Program.isListing_listingRecord (p : Program) : p.listingRecord.IsListing :=
  List.prefix_append _ _

theorem Fault.not_isListing_record (f : Fault) : ¬ f.record.IsListing := by
  intro h
  have htwo : f.message.take 2 = ['p', 'r'] := h.take_two
  cases f <;> cases htwo

theorem Event.not_isListing_record (e : Event) : ¬ e.record.IsListing := by
  intro h
  have htwo := h.take_two
  cases e <;> cases htwo

theorem Analysis.not_isListing_summary (a : Analysis) : ¬ a.summary.IsListing := by
  intro h
  have htwo := h.take_two
  cases htwo

/-- None of the records of an analysis is a listing. -/
theorem Analysis.not_isListing_of_mem (a : Analysis) {r : Record} (h : r ∈ a.records) :
    ¬ r.IsListing := by
  rcases a.mem_records h with ⟨e, rfl⟩ | rfl
  · exact e.not_isListing_record
  · exact a.not_isListing_summary

section

variable {rs : List Record} {r : Record} {t : Text}

/-- the record of a fault is no listing -/
theorem Outcome.mem_failed_of_isListing {f : Fault} (hr : r.IsListing) :
    r ∈ (failed rs t f).records ↔ r ∈ rs := by
  refine ⟨fun h => ?_, List.mem_append_left _⟩
  rcases List.mem_append.mp h with h | h
  · exact h
  · rw [List.mem_singleton] at h
    rw [h] at hr
    exact absurd hr f.not_isListing_record

theorem Outcome.mem_delivering_of_isListing {out : Sink} (hr : r.IsListing) :
    r ∈ (delivering rs out t).records ↔ r ∈ rs := by
  unfold delivering
  cases out.delivery t with
  | ok u => exact Iff.rfl
  | error f => exact mem_failed_of_isListing hr

/-- A run has the listing of a program that was read, and no other. -/
theorem mem_run_of_isListing {arguments : List Bytes} {input : Bytes} {out : Sink}
    (hr : r.IsListing) : r ∈ (run arguments input out).records ↔
      Command.ofArguments arguments = .ok .analyze ∧
        ∃ p, parse input = .ok p ∧ r = p.listingRecord := by
  cases hc : Command.ofArguments arguments with
  | error f =>
    rw [run_of_error hc, Outcome.mem_failed_of_isListing hr]
    refine iff_of_false List.not_mem_nil ?_
    rintro ⟨h, -⟩
    cases h
  | ok c =>
    cases c with
    | help =>
      rw [run_of_help hc, Outcome.mem_delivering_of_isListing hr]
      refine iff_of_false List.not_mem_nil ?_
      rintro ⟨h, -⟩
      cases h
    | analyze =>
      have hrecords : r ∉ (Analysis.ofSource input).records :=
        fun h => Analysis.not_isListing_of_mem _ h hr
      rw [run_of_analyze hc, and_iff_right rfl]
      cases hp : parse input with
      | error f =>
        rw [analyzeTo_of_error hp, Outcome.mem_failed_of_isListing hr]
        refine iff_of_false hrecords ?_
        rintro ⟨p, hp, -⟩
        cases hp
      | ok p =>
        rw [analyzeTo_of_ok hp, Outcome.mem_delivering_of_isListing hr, List.mem_append,
          or_iff_right hrecords, List.mem_singleton]
        refine ⟨fun h => ⟨p, rfl, h⟩, ?_⟩
        rintro ⟨q, hq, rfl⟩
        rw [Except.ok.inj hq]

end

/-! ## the setting -/

/-- **The setting of the log chooses among records, and decides nothing else.** -/
theorem process_log (arguments : List Bytes) (input : Bytes) (out : Sink) :
    ∃ (code : Nat) (stdout : Text) (records : List Record),
      (∀ setting : Option Text,
        let v := Verbosity.ofSetting setting
        let r := process setting arguments input out
        r.code = code ∧ r.stdout = stdout ∧
          r.log = (records.filter fun x => v.admits x.severity) ∧
          r.stderr = (records.filter fun x => v.admits x.severity).flatMap Record.line ∧
          ((∃ x ∈ r.log, x.IsListing) ↔ (v = .upTo .debug ∨ v = .upTo .trace) ∧
            Command.ofArguments arguments = .ok .analyze ∧ ∃ p, parse input = .ok p) ∧
          ∀ x ∈ r.log, x.IsListing → ∃ p, parse input = .ok p ∧ x = p.listingRecord) ∧
      ∀ s s' : Option Text, (Verbosity.ofSetting s).rank ≤ (Verbosity.ofSetting s').rank →
        (process s arguments input out).log.Sublist (process s' arguments input out).log := by
  let o := run arguments input out
  have hlog : ∀ s, (process s arguments input out).log = shown (.ofSetting s) o.records := by
    intro s
    rw [process_eq]
    rfl
  refine ⟨o.code, o.stdout, o.records, ?_, ?_⟩
  · intro setting v r
    have hr : r = o.report v := process_eq setting arguments input out
    have hstderr : r.stderr = o.stderr v := by rw [hr, Outcome.stderr_report]
    refine ⟨congrArg Report.code hr, congrArg Report.stdout hr, hlog setting, hstderr, ?_, ?_⟩
    · rw [← Verbosity.admits_debug_iff]
      refine ⟨?_, ?_⟩
      · intro h
        obtain ⟨x, hx, hlisting⟩ := h
        rw [hlog, mem_shown_iff, mem_run_of_isListing hlisting] at hx
        obtain ⟨⟨hc, p, hp, rfl⟩, hadmits⟩ := hx
        exact ⟨hadmits, hc, p, hp⟩
      · intro h
        obtain ⟨hadmits, hc, p, hp⟩ := h
        refine ⟨p.listingRecord, ?_, p.isListing_listingRecord⟩
        rw [hlog, mem_shown_iff, mem_run_of_isListing p.isListing_listingRecord]
        exact ⟨⟨hc, p, hp, rfl⟩, hadmits⟩
    · intro x hx hlisting
      rw [hlog, mem_shown_iff, mem_run_of_isListing hlisting] at hx
      exact hx.1.2
  · intro s s' h
    rw [hlog, hlog]
    exact shown_sublist h o.records

/-- a program that is read under two settings, of which only the second one shows its listing -/
theorem process_log_levels :
    let arguments := [Utf8.encode "parse".toList]
    let input := Utf8.encode ".IPPcode22\nBREAK".toList
    let terse := process (some " 2 ".toList) arguments input .unbounded
    let verbose := process (some "Debug".toList) arguments input .unbounded
    terse.code = verbose.code ∧ terse.stdout = verbose.stdout ∧
      (Verbosity.ofSetting (some " 2 ".toList)).rank
        ≤ (Verbosity.ofSetting (some "Debug".toList)).rank ∧
      terse.log.Sublist verbose.log ∧ (∃ x ∈ verbose.log, x.IsListing) ∧
      ¬ ∃ x ∈ terse.log, x.IsListing := by
  intro arguments input terse verbose
  have hrank : (Verbosity.ofSetting (some " 2 ".toList)).rank
      ≤ (Verbosity.ofSetting (some "Debug".toList)).rank := by decide
  obtain ⟨code, stdout, records, hsettings, hlevels⟩ := process_log arguments input .unbounded
  obtain ⟨hcode, hstdout, -, -, hterse, -⟩ := hsettings (some " 2 ".toList)
  obtain ⟨hcode', hstdout', -, -, hverbose, -⟩ := hsettings (some "Debug".toList)
  refine ⟨hcode.trans hcode'.symm, hstdout.trans hstdout'.symm, hrank, hlevels _ _ hrank, ?_, ?_⟩
  · exact hverbose.mpr ⟨by decide, rfl, _, rfl⟩
  · intro h
    exact absurd (hterse.mp h).1 (by decide)

end Ippcode
