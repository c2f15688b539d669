import Ippcode.Proofs.Command.Process
import Ippcode.Proofs.Fault.OneLine

/-!
# All or nothing

A process delivers a whole text and succeeds, or it delivers nothing, fails, and says why in the
last line of its log.

* `Delivers`, `Rejects`  what a command line and an input come to: a text, or a fault;
* `Fails`                why a process fails, which may also be that its output takes nothing;
* `run_ends`             a run delivers a text or fails for a reason, and tells of no other fault;
* `AllOrNothing`         what can be said of a report, and `process_allOrNothing`: of every one.
-/

namespace Ippcode

open Log

/-! ## texts and faults -/

/-- the text that is to be delivered -/
inductive Delivers (arguments : List Bytes) (input : Bytes) : Text → Prop where
  | help : Command.ofArguments arguments = .ok .help → Delivers arguments input helpText
  | document {p : Program} : Command.ofArguments arguments = .ok .analyze →
      parse input = .ok p → Delivers arguments input p.document

/-- the fault for which there is nothing to be delivered -/
inductive Rejects (arguments : List Bytes) (input : Bytes) : Fault → Prop where
  | arguments {f : Fault} : Command.ofArguments arguments = .error f → Rejects arguments input f
  | source {f : Fault} : Command.ofArguments arguments = .ok .analyze → parse input = .error f →
      Rejects arguments input f

/-- the fault for which a process fails -/
inductive Fails (arguments : List Bytes) (input : Bytes) : Output → Fault → Prop where
  | rejected {output : Output} {f : Fault} : Rejects arguments input f →
      Fails arguments input output f
  | undelivered {t : Text} : Delivers arguments input t →
      Fails arguments input .full (.undelivered Sink.noSpace.full)

section

variable {arguments : List Bytes} {input : Bytes}

theorem rejects_or_delivers (arguments : List Bytes) (input : Bytes) :
    (∃ f, Rejects arguments input f) ∨ ∃ t, Delivers arguments input t := by
  cases hc : Command.ofArguments arguments with
  | error f => exact .inl ⟨f, .arguments hc⟩
  | ok c =>
    cases c with
    | help => exact .inr ⟨helpText, .help hc⟩
    | analyze =>
      cases hp : parse input with
      | error f => exact .inl ⟨f, .source hc hp⟩
      | ok p => exact .inr ⟨p.document, .document hc hp⟩

theorem Delivers.ne_nil {t : Text} (h : Delivers arguments input t) : t ≠ [] := by
  cases h with
  | help => exact List.cons_ne_nil _ _
  | @document p => exact p.document_ne_nil

theorem Delivers.not_rejects {t : Text} (h : Delivers arguments input t) (f : Fault) :
    ¬ Rejects arguments input f := by
  intro hf
  cases h with
  | help hc =>
    cases hf with
    | arguments hc' => exact nomatch hc.symm.trans hc'
    | source hc' => exact nomatch hc.symm.trans hc'
  | document hc hp =>
    cases hf with
    | arguments hc' => exact nomatch hc.symm.trans hc'
    | source _ hp' => exact nomatch hp.symm.trans hp'

theorem exitCode_of_parse {f : Fault} (h : parse input = .error f) :
    f.exitCode ∈ [11, 21, 22, 23] := by
  rcases parse_eq_error_iff.mp h with ⟨-, rfl⟩ | ⟨a, l, b, o, n, -, -, hl⟩
  · decide
  · rw [hl.exitCode]
    cases hl with
    | unreadable => decide
    | wrongHeader => decide
    | statement _ _ _ hw => cases hw <;> decide

end

/-! ## how a run ends -/

/-- records of which none is an error -/
def Quiet (rs : List Record) : Prop := ∀ r ∈ rs, r.severity ≠ .error

theorem quiet_records (a : Analysis) : Quiet a.records := by
  intro r hr
  rcases a.mem_records hr with ⟨e, rfl⟩ | rfl
  · cases e <;> exact Severity.noConfusion
  · exact Severity.noConfusion

theorem Quiet.concat {rs : List Record} (h : Quiet rs) {r : Record} (hr : r.severity ≠ .error) :
    Quiet (rs ++ [r]) :=
  List.forall_mem_append.mpr ⟨h, List.forall_mem_singleton.mpr hr⟩

theorem quiet_nil : Quiet [] := List.forall_mem_nil _

theorem Quiet.shown {rs : List Record} (h : Quiet rs) (v : Verbosity) : Quiet (shown v rs) :=
  fun r hr => h r (mem_shown_iff.mp hr).1

section

variable {arguments : List Bytes} {input : Bytes}

/-- A run that has nothing to deliver does not look at its output. -/
theorem run_of_rejects {f : Fault} (h : Rejects arguments input f) :
    ∃ rs, Quiet rs ∧ ∀ out, run arguments input out = .failed rs [] f := by
  cases h with
  | arguments hc => exact ⟨[], quiet_nil, fun out => run_of_error hc input out⟩
  | source hc hp =>
    refine ⟨_, quiet_records (Analysis.ofSource input), fun out => ?_⟩
    rw [run_of_analyze hc, analyzeTo_of_error hp]

theorem run_of_delivers {t : Text} (h : Delivers arguments input t) :
    ∃ rs, Quiet rs ∧ ∀ out, run arguments input out = .delivering rs out t := by
  cases h with
  | help hc => exact ⟨[], quiet_nil, fun out => run_of_help hc input out⟩
  | @document p hc hp =>
    have hquiet : Quiet ((Analysis.ofSource input).records ++ [p.listingRecord]) :=
      (quiet_records _).concat Severity.noConfusion
    refine ⟨_, hquiet, fun out => ?_⟩
    rw [run_of_analyze hc, analyzeTo_of_ok hp]

/-- **A run delivers a text, or delivers nothing and fails for a reason.**  It tells of no other
fault. -/
theorem run_ends (arguments : List Bytes) (input : Bytes) (output : Output) :
    ∃ rs, Quiet rs ∧
      ((∃ t, output = .good ∧ Delivers arguments input t ∧
          run arguments input output.sink = ⟨0, t, rs⟩) ∨
        ∃ f, Fails arguments input output f ∧
          run arguments input output.sink = .failed rs [] f) := by
  rcases rejects_or_delivers arguments input with ⟨f, hf⟩ | ⟨t, ht⟩
  · obtain ⟨rs, hrs, hrun⟩ := run_of_rejects hf
    exact ⟨rs, hrs, .inr ⟨f, .rejected hf, hrun _⟩⟩
  · obtain ⟨rs, hrs, hrun⟩ := run_of_delivers ht
    cases output with
    | good => exact ⟨rs, hrs, .inl ⟨t, rfl, ht, hrun _⟩⟩
    | full =>
      refine ⟨rs, hrs, .inr ⟨_, .undelivered ht, ?_⟩⟩
      have hrefused : Sink.noSpace.delivery t = .error (.undelivered Sink.noSpace.full) :=
        Sink.delivery_refusing ht.ne_nil
      have htaken : Sink.noSpace.taken t = [] := Sink.taken_refusing _ t
      show run arguments input .noSpace = _
      rw [hrun, Outcome.delivering, hrefused, htaken]

end

/-! ## reports -/

section

variable {arguments : List Bytes} {input : Bytes} {output : Output}

/-- the same of the process, under a setting -/
theorem process_ends (setting : Option Text) (arguments : List Bytes) (input : Bytes)
    (output : Output) : ∃ rs, Quiet rs ∧
      ((∃ t, output = .good ∧ Delivers arguments input t ∧
          process setting arguments input output.sink = ⟨0, t, rs⟩) ∨
        ∃ f, Fails arguments input output f ∧ process setting arguments input output.sink
          = ⟨f.exitCode, [], rs ++ shown (.ofSetting setting) [f.record]⟩) := by
  obtain ⟨rs, hrs, hend⟩ := run_ends arguments input output
  refine ⟨shown (.ofSetting setting) rs, hrs.shown _, ?_⟩
  rw [process_eq]
  rcases hend with ⟨t, hout, ht, hrun⟩ | ⟨f, hf, hrun⟩
  · exact .inl ⟨t, hout, ht, by rw [hrun]; rfl⟩
  · refine .inr ⟨f, hf, ?_⟩
    rw [hrun, ← shown_append]
    rfl

/-! ## exit codes -/

/-- the reasons for which a process fails, by their numbers -/
theorem Fails.exitCode_cases {f : Fault} (h : Fails arguments input output f) :
    ((∃ g, Command.ofArguments arguments = .error g) ∧ f.exitCode = 10) ∨
      (Command.ofArguments arguments = .ok .analyze ∧ parse input = .error f ∧
        f.exitCode ∈ [11, 21, 22, 23]) ∨
      (output = .full ∧ (∃ t, Delivers arguments input t) ∧ f.exitCode = 12) := by
  cases h with
  | rejected h =>
    cases h with
    | arguments hc =>
      obtain ⟨reason, rfl, -⟩ := Command.exists_reason hc
      exact .inl ⟨⟨_, hc⟩, rfl⟩
    | source hc hp => exact .inr (.inl ⟨hc, hp, exitCode_of_parse hp⟩)
  | undelivered ht => exact .inr (.inr ⟨rfl, ⟨_, ht⟩, rfl⟩)

/-- with a good output it is only a text that is wanted -/
theorem code_good_eq_zero_iff (setting : Option Text) :
    (process setting arguments input Output.good.sink).code = 0 ↔
      ∃ t, Delivers arguments input t := by
  obtain ⟨rs, -, ⟨t, -, ht, h⟩ | ⟨f, hf, h⟩⟩ := process_ends setting arguments input .good
  · rw [h]
    exact iff_of_true rfl ⟨t, ht⟩
  · rw [h]
    refine iff_of_false f.exitCode_ne_zero ?_
    rintro ⟨t, ht⟩
    cases hf with
    | rejected hr => exact ht.not_rejects f hr

theorem process_exitCode (setting : Option Text) (arguments : List Bytes) (input : Bytes)
    (output : Output) :
    let r := process setting arguments input output.sink
    (r.code = 10 ↔ ∃ f, Command.ofArguments arguments = .error f) ∧
      (r.code = 12 ↔
        output = .full ∧ (process setting arguments input Output.good.sink).code = 0) ∧
      (r.code ≠ 10 → r.code ≠ 12 →
        (r.code = 0 ∧ ∃ t, Delivers arguments input t) ∨
          ∃ f, Command.ofArguments arguments = .ok .analyze ∧ parse input = .error f ∧
            r.code = f.exitCode) ∧
      r.code ≠ 99 := by
  intro r
  rw [code_good_eq_zero_iff]
  obtain ⟨rs, -, ⟨t, hout, ht, h⟩ | ⟨f, hf, h⟩⟩ := process_ends setting arguments input output
  · have hcode : r.code = 0 := congrArg Report.code h
    rw [hcode]
    refine ⟨iff_of_false (by decide) ?_, iff_of_false (by decide) ?_, ?_, by decide⟩
    · rintro ⟨f, hf⟩
      exact ht.not_rejects f (.arguments hf)
    · rintro ⟨hfull, -⟩
      rw [hout] at hfull
      cases hfull
    · exact fun _ _ => .inl ⟨rfl, t, ht⟩
  · have hcode : r.code = f.exitCode := congrArg Report.code h
    rw [hcode]
    rcases hf.exitCode_cases with ⟨hc, hn⟩ | ⟨hc, hp, hn⟩ | ⟨hout, ⟨t, ht⟩, hn⟩
    · rw [hn]
      refine ⟨iff_of_true rfl hc, iff_of_false (by decide) ?_, fun h => absurd rfl h, by decide⟩
      rintro ⟨-, t, ht⟩
      obtain ⟨g, hg⟩ := hc
      exact ht.not_rejects g (.arguments hg)
    · have hne : f.exitCode ≠ 10 ∧ f.exitCode ≠ 12 ∧ f.exitCode ≠ 99 := by
        have hall : ∀ n ∈ [11, 21, 22, 23], n ≠ 10 ∧ n ≠ 12 ∧ n ≠ 99 := by decide
        exact hall _ hn
      refine ⟨iff_of_false hne.1 ?_, iff_of_false hne.2.1 ?_, ?_, hne.2.2⟩
      · rintro ⟨g, hg⟩
        exact nomatch hc.symm.trans hg
      · rintro ⟨-, t, ht⟩
        exact ht.not_rejects f (.source hc hp)
      · exact fun _ _ => .inr ⟨f, hc, hp, rfl⟩
    · rw [hn]
      refine ⟨iff_of_false (by decide) ?_, iff_of_true rfl ⟨hout, t, ht⟩,
        fun _ h => absurd rfl h, by decide⟩
      rintro ⟨g, hg⟩
      exact ht.not_rejects g (.arguments hg)

/-! ## the last record -/

theorem Fails.isOneLine {f : Fault} (h : Fails arguments input output f) : f.IsOneLine := by
  cases h with
  | rejected h =>
    cases h with
    | arguments hc =>
      obtain ⟨reason, rfl, hreason⟩ := Command.exists_reason hc
      exact List.forall_mem_singleton.mpr hreason
    | source hc hp => exact oneLine_of_parse hp
  | undelivered => exact List.forall_mem_singleton.mpr (by decide)

/-- a command line that is rejected, or asks for help, leaves the input alone -/
theorem process_input_irrelevant (h : Command.ofArguments arguments ≠ .ok .analyze)
    (setting : Option Text) (input input' : Bytes) (out : Sink) :
    process setting arguments input' out = process setting arguments input out := by
  cases hc : Command.ofArguments arguments with
  | error f => rw [process_of_error hc, process_of_error hc]
  | ok c =>
    cases c with
    | help => rw [process_of_help hc, process_of_help hc]
    | analyze => exact absurd hc h

end

/-- **A process delivers all or nothing.** -/
theorem process_allOrNothing (setting : Option Text) (arguments : List Bytes) (input : Bytes)
    (output : Output) :
    let r := process setting arguments input output.sink
    ((r.code ≠ 0 → r.stdout = []) ∧ (r.code = 0 → Delivers arguments input r.stdout)) ∧
      ((r.code = 10 ↔ ∃ f, Command.ofArguments arguments = .error f) ∧
        (r.code = 12 ↔
          output = .full ∧ (process setting arguments input Output.good.sink).code = 0) ∧
        (r.code ≠ 10 → r.code ≠ 12 →
          (r.code = 0 ∧ ∃ t, Delivers arguments input t) ∨
            ∃ f, Command.ofArguments arguments = .ok .analyze ∧ parse input = .error f ∧
              r.code = f.exitCode) ∧
        r.code ≠ 99) ∧
      (Command.ofArguments arguments ≠ .ok .analyze →
        ∀ input', process setting arguments input' output.sink = r) ∧
      (r.code = 0 → ∀ x ∈ r.log, x.severity ≠ .error) ∧
      (r.code ≠ 0 → Verbosity.ofSetting setting ≠ .off →
        ∃ f rs x, Fails arguments input output f ∧ r.code = f.exitCode ∧ r.log = rs ++ [x] ∧
          (∀ y ∈ rs, y.severity ≠ .error) ∧ x.severity = .error ∧ x.message = f.message ∧
          '\n' ∉ f.message) := by
  intro r
  have hcodes := process_exitCode setting arguments input output
  have hinput : Command.ofArguments arguments ≠ .ok .analyze →
      ∀ input', process setting arguments input' output.sink = r :=
    fun h input' => process_input_irrelevant h setting input input' output.sink
  obtain ⟨rs, hrs, ⟨t, hout, ht, h⟩ | ⟨f, hf, h⟩⟩ := process_ends setting arguments input output
  · have hr : r = ⟨0, t, rs⟩ := h
    refine ⟨⟨?_, ?_⟩, hcodes, hinput, ?_, ?_⟩
    · rw [hr]
      exact fun hne => absurd rfl hne
    · rw [hr]
      exact fun _ => ht
    · rw [hr]
      exact fun _ => hrs
    · rw [hr]
      exact fun hne => absurd rfl hne
  · have hr : r = ⟨f.exitCode, [], rs ++ shown (.ofSetting setting) [f.record]⟩ := h
    refine ⟨⟨?_, ?_⟩, hcodes, hinput, ?_, ?_⟩
    · rw [hr]
      exact fun _ => rfl
    · rw [hr]
      exact fun hzero => absurd hzero f.exitCode_ne_zero
    · rw [hr]
      exact fun hzero => absurd hzero f.exitCode_ne_zero
    · intro _ hlevel
      have hshown : shown (.ofSetting setting) [f.record] = [f.record] :=
        shown_of_admits (Verbosity.admits_error_of_ne_off hlevel)
      rw [hr, hshown]
      exact ⟨f, rs, f.record, hf, rfl, rfl, hrs, rfl, rfl,
        Fault.lineFeed_notMem_message hf.isOneLine⟩

/-- a word of two lines on the command line, and a program whose document does not fit -/
theorem process_allOrNothing_full :
    let rejected := [Utf8.encode "parse".toList, Utf8.encode "a\nb".toList]
    let arguments := [Utf8.encode "parse".toList]
    let input := Utf8.encode ".IPPcode22\nBREAK".toList
    let r := process (some "warn".toList) rejected input Output.good.sink
    let q := process (some "warn".toList) arguments input Output.full.sink
    Verbosity.ofSetting (some "warn".toList) ≠ .off ∧
      ((∃ f, Command.ofArguments rejected = .error f) ∧ r.code = 10 ∧ r.stdout = [] ∧
        (∃ f rs x, Fails rejected input .good f ∧ r.log = rs ++ [x] ∧ x.message = f.message ∧
          '\n' ∉ f.message) ∧
        process (some "warn".toList) rejected [] Output.good.sink = r) ∧
      q.code = 12 ∧ q.stdout = [] ∧
      (process (some "warn".toList) arguments input Output.good.sink).code = 0 ∧
      Delivers arguments input
        (process (some "warn".toList) arguments input Output.good.sink).stdout := by
  intro rejected arguments input r q
  have hlevel : Verbosity.ofSetting (some "warn".toList) ≠ .off := by decide
  have hrejected : ∃ f, Command.ofArguments rejected = .error f := ⟨_, rfl⟩
  have hgood : (process (some "warn".toList) arguments input Output.good.sink).code = 0 := by rfl
  obtain ⟨⟨hnothing, -⟩, ⟨hten, -⟩, hinput, -, hlast⟩ :=
    process_allOrNothing (some "warn".toList) rejected input .good
  obtain ⟨⟨hnothing', -⟩, ⟨-, htwelve, -⟩, -⟩ :=
    process_allOrNothing (some "warn".toList) arguments input .full
  have hr : r.code = 10 := hten.mpr hrejected
  have hq : q.code = 12 := htwelve.mpr ⟨rfl, hgood⟩
  have hr' : r.code ≠ 0 := by rw [hr]; decide
  have hq' : q.code ≠ 0 := by rw [hq]; decide
  refine ⟨hlevel, ⟨hrejected, hr, hnothing hr', ?_, ?_⟩, hq, hnothing' hq', hgood,
    (process_allOrNothing (some "warn".toList) arguments input .good).1.2 hgood⟩
  · obtain ⟨f, rs, x, hf, -, hlog, -, -, hmessage, hline⟩ := hlast hr' hlevel
    exact ⟨f, rs, x, hf, hlog, hmessage, hline⟩
  · apply hinput
    obtain ⟨f, hf⟩ := hrejected
    rw [hf]
    exact fun h => nomatch h

end Ippcode
