import Ippcode.Proofs.Analysis.Lines
import Ippcode.Proofs.Analysis.Step

/-!
# A run of the analysis

What the machine does on one line, by what the line is, and from it what it does on a source:

* `After a ls o`           where the machine is once the lines `ls`, saying `o`, have passed;
* `after_readAll`          lines that pass lead there;
* `phase_read_of_offends`  a line that offends brings the machine to rest;
* `parse_eq_ok_iff`, `parse_eq_error_iff`   the result for a source, by its lines.
-/

namespace Ippcode.Analysis

open Source Utf8

/-- what the machine is about to meet after lines that say `o` -/
def phaseOf : Option Said → Phase
  | none => .preamble
  | some _ => .body

/-- the machine after the lines `ls`, which say `o` -/
structure After (a : Analysis) (ls : List Bytes) (o : Option Said) : Prop where
  line : a.line = ls.length
  phase : a.phase = phaseOf o
  program : a.program = Program.ofList (o.getD [])

theorem after_start : After start [] none := ⟨rfl, rfl, rfl⟩

/-! ## one line -/

section

variable {a : Analysis} {ls : List Bytes} {o : Option Said}

theorem After.line_succ (h : After a ls o) (l : Bytes) : a.line + 1 = (ls ++ [l]).length := by
  rw [h.line, List.length_append, List.length_singleton]

/-- Lines that pass do not bring the machine to rest. -/
theorem After.not_stopped (h : After a ls o) : ¬ a.phase.Stopped := by
  rw [h.phase]
  cases o with
  | none => exact Phase.not_stopped_preamble
  | some xs => exact Phase.not_stopped_body

/-- a line of text, by what it brings -/
theorem read_encode (h : After a ls o) (t : Text) :
    a.read (encode t) = a.follow ((phaseOf o).effect (ls.length + 1) t) := by
  rw [read_eq_turn h.not_stopped, readAfter_encode, turn, Phase.effect_congr (code_chomp t),
    h.phase, h.line]

theorem read_of_blank (h : After a ls o) {l : Bytes} (hl : Blank l) : a.read l = a.pass := by
  obtain ⟨t, rfl, ht⟩ := hl
  rw [read_encode h, Phase.effect_of_code_eq_nil ht]
  rfl

theorem after_blank (h : After a ls o) {l : Bytes} (hl : Blank l) :
    After (a.read l) (ls ++ [l]) o := by
  rw [read_of_blank h hl]
  exact ⟨h.line_succ _, h.phase, h.program⟩

theorem after_header (h : After a ls none) {l : Bytes} (hl : IsHeader l) :
    After (a.read l) (ls ++ [l]) (some []) := by
  obtain ⟨t, rfl, ht⟩ := hl
  rw [read_encode h, phaseOf, Phase.effect_preamble (code_ne_nil_of_header ht),
    (checkHeader_eq_ok_iff _ _).mpr ht]
  exact ⟨h.line_succ _, rfl, h.program⟩

theorem after_statement {xs : Said} (h : After a ls (some xs)) {l : Bytes}
    {x : Text × List Argument} (hl : Says l x) :
    After (a.read l) (ls ++ [l]) (some (xs ++ [x])) := by
  obtain ⟨t, rfl, ht⟩ := hl
  obtain ⟨s, hs, hok⟩ := (Statement.accepted_iff (n := ls.length + 1)).mpr ht
  have hprogram : a.program.push x.1 x.2 = Program.ofList (xs ++ [x]) := by
    rw [h.program, Option.getD_some, Program.ofList, Program.ofList, Program.pushAll_append]
    rfl
  rw [read_encode h, phaseOf, Phase.effect_body hs, hok]
  exact ⟨h.line_succ _, h.phase, hprogram⟩

theorem phase_read_of_offends (h : After a ls o) (hp : Passes ls o) {l : Bytes} {f : Fault}
    {n : Nat} (hl : Offends ls l f n) : (a.read l).phase = .stopped f := by
  cases hl with
  | unreadable hu =>
    rw [read_eq_turn h.not_stopped, readAfter_of_not_text hu, h.line]
    rfl
  | @wrongHeader t ht hc hb hn =>
    cases o with
    | none =>
      rw [ht, read_encode h, phaseOf, Phase.effect_preamble hc, checkHeader, hn]
      rfl
    | some xs =>
      obtain ⟨k, hk, hcode⟩ := hp.afterHeader.exists_hasCode
      exact absurd hcode (hb k hk)
  | @statement t s _ _ ht ha hs hw =>
    cases o with
    | none =>
      obtain ⟨k, hk, hcode⟩ := ha.exists_hasCode
      exact absurd hcode (hp.no_hasCode k hk)
    | some xs =>
      rw [ht, read_encode h, phaseOf, Phase.effect_body hs, hw.check]
      rfl

end

/-! ## many lines -/

theorem after_readAll {ls : List Bytes} {o : Option Said} (h : Passes ls o) :
    After (start.readAll ls) ls o := by
  have hsnoc : ∀ (ls : List Bytes) (l : Bytes),
      start.readAll (ls ++ [l]) = (start.readAll ls).read l := by
    intro ls l
    rw [readAll_append]
    rfl
  induction h with
  | start => exact after_start
  | blank _ hl ih =>
    rw [hsnoc]
    exact after_blank ih hl
  | header _ hl ih =>
    rw [hsnoc]
    exact after_header ih hl
  | statement _ hl ih =>
    rw [hsnoc]
    exact after_statement ih hl

theorem phase_readAll_of_offends {before after : List Bytes} {l : Bytes} {o : Option Said}
    {f : Fault} {n : Nat} (hp : Passes before o) (hl : Offends before l f n) :
    (start.readAll (before ++ l :: after)).phase = .stopped f := by
  have hstop := phase_read_of_offends (after_readAll hp) hp hl
  rw [readAll_append, readAll_cons, readAll_of_stopped hstop, hstop]

end Ippcode.Analysis

namespace Ippcode

open Source Analysis

/-! ## sources -/

theorem parse_of_passes {bs : Bytes} {xs : Said} (h : Passes (breakLines bs) (some xs)) :
    parse bs = .ok (Program.ofList xs) := by
  have ha := after_readAll h
  rw [parse, result, ofSource, ha.phase, ha.program]
  rfl

theorem parse_of_no_header {bs : Bytes} (h : Passes (breakLines bs) none) :
    parse bs = .error (.missingHeader header) := by
  rw [parse, result, ofSource, (after_readAll h).phase]
  rfl

theorem parse_of_offends {bs : Bytes} {before after : List Bytes} {l : Bytes} {o : Option Said}
    {f : Fault} {n : Nat} (hls : breakLines bs = before ++ l :: after) (hp : Passes before o)
    (hl : Offends before l f n) : parse bs = .error f := by
  rw [parse, result, ofSource, hls, phase_readAll_of_offends hp hl]

/-- a source is accepted when all its lines pass, and one of them is the header -/
theorem parse_eq_ok_iff {bs : Bytes} {p : Program} : parse bs = .ok p ↔
    ∃ xs, Passes (breakLines bs) (some xs) ∧ p = Program.ofList xs := by
  refine ⟨fun h => ?_, ?_⟩
  · rcases passes_or_offends (breakLines bs) with ⟨o, hp⟩ | ⟨a, l, b, o, f, n, hls, ha, hf⟩
    · cases o with
      | none =>
        rw [parse_of_no_header hp] at h
        cases h
      | some xs =>
        rw [parse_of_passes hp] at h
        exact ⟨xs, hp, (Except.ok.inj h).symm⟩
    · rw [parse_of_offends hls ha hf] at h
      cases h
  · intro h
    obtain ⟨xs, hp, rfl⟩ := h
    exact parse_of_passes hp

/-- a source is rejected for its first offending line, or for want of a header -/
theorem parse_eq_error_iff {bs : Bytes} {f : Fault} : parse bs = .error f ↔
    (Passes (breakLines bs) none ∧ f = .missingHeader header) ∨
    ∃ a l b o n, breakLines bs = a ++ l :: b ∧ Passes a o ∧ Offends a l f n := by
  refine ⟨fun h => ?_, ?_⟩
  · rcases passes_or_offends (breakLines bs) with ⟨o, hp⟩ | ⟨a, l, b, o, g, n, hls, ha, hg⟩
    · cases o with
      | none =>
        rw [parse_of_no_header hp] at h
        exact .inl ⟨hp, (Except.error.inj h).symm⟩
      | some xs =>
        rw [parse_of_passes hp] at h
        cases h
    · rw [parse_of_offends hls ha hg] at h
      obtain rfl := Except.error.inj h
      exact .inr ⟨a, l, b, o, n, hls, ha, hg⟩
  · intro h
    rcases h with ⟨hp, rfl⟩ | ⟨a, l, b, o, n, hls, ha, hf⟩
    · exact parse_of_no_header hp
    · exact parse_of_offends hls ha hf

end Ippcode
