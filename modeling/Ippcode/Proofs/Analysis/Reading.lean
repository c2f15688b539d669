import Ippcode.Proofs.Analysis.Step
import Ippcode.Proofs.Source.Reader

/-!
# An analysis as a loop over a reader

An analysis is handed its lines, and a reader is asked for them.  Asked for the header and then for
line after line, a reader leads to the program or the fault that comes of the source.

* `Reader.expectHeader_eq`   the search for the header asks for line after line as well;
* `Reader.readBody r p`      asks for lines up to the end, and pushes the statements on `p`;
* `Reader.readProgram r`     asks for the header before that;
* `parse_eq_readProgram`     this is what comes of a source;
* `exists_isUnreadable`      where an analysis comes to rest on an unreadable line, some steps of a
                             reader come upon one.
-/

namespace Ippcode

open Source

namespace Source.Reader

/-! ## loops over lines -/

/-- The search for the header takes a line, and goes on where there is no code on it. -/
theorem expectHeader_eq (r : Reader) : r.expectHeader =
    match r.nextLine with
    | (.ok none, r') => (.error (.missingHeader header), r')
    | (.error f, r') => (.error f, r')
    | (.ok (some t), r') =>
      if code t = [] then r'.expectHeader else (checkHeader r'.line (code t), r') := by
  obtain ⟨left, n⟩ := r
  cases left with
  | nil => rfl
  | cons raw rest =>
    unfold nextLine expectHeader
    simp only [seekHeader]
    cases readAfter n raw <;> rfl

theorem length_pending_lt {r r' : Reader} {t : Text} (h : r.nextLine = (.ok (some t), r')) :
    r'.pending.length < r.pending.length := by
  obtain ⟨left, n⟩ := r
  cases left with
  | nil => cases h
  | cons raw rest =>
    cases hraw : readAfter n raw with
    | ok u =>
      rw [nextLine_cons_of_ok hraw] at h
      rw [← (Prod.mk.inj h).2]
      exact Nat.lt_succ_self _
    | error f =>
      rw [nextLine_cons_of_error hraw] at h
      cases h

/-- every line with code that is still to come is a statement, and is pushed on the program -/
def readBody (r : Reader) (p : Program) : Except Fault Program :=
  match _h : r.nextLine with
  | (.ok none, _) => .ok p
  | (.error f, _) => .error f
  | (.ok (some t), r') =>
    match Statement.ofLine? r'.line t with
    | none => r'.readBody p
    | some s =>
      match s.check with
      | .ok (opcode, arguments) => r'.readBody (p.push opcode arguments)
      | .error f => .error f
termination_by r.pending.length
decreasing_by all_goals exact length_pending_lt _h

/-- the header, and all that comes after it -/
def readProgram (r : Reader) : Except Fault Program :=
  match r.expectHeader with
  | (.error f, _) => .error f
  | (.ok (), r') => r'.readBody .empty

section

variable {n : Nat} {raw : Bytes} {t : Text}

theorem readBody_end (n : Nat) (p : Program) : readBody ⟨[], n⟩ p = .ok p := by
  rw [readBody]
  rfl

theorem readBody_of_error {f : Fault} (h : readAfter n raw = .error f) (rest : List Bytes)
    (p : Program) : readBody ⟨raw :: rest, n⟩ p = .error f := by
  rw [readBody, nextLine_cons_of_error h]

theorem readBody_of_blank (h : readAfter n raw = .ok t)
    (hs : Statement.ofLine? (n + 1) t = none) (rest : List Bytes) (p : Program) :
    readBody ⟨raw :: rest, n⟩ p = readBody ⟨rest, n + 1⟩ p := by
  rw [readBody, nextLine_cons_of_ok h]
  simp only [hs]

theorem readBody_of_statement {s : Statement} {x : Text × List Argument}
    (h : readAfter n raw = .ok t) (hs : Statement.ofLine? (n + 1) t = some s)
    (hc : s.check = .ok x) (rest : List Bytes) (p : Program) :
    readBody ⟨raw :: rest, n⟩ p = readBody ⟨rest, n + 1⟩ (p.push x.1 x.2) := by
  rw [readBody, nextLine_cons_of_ok h]
  simp only [hs, hc]

theorem readBody_of_wrong {s : Statement} {f : Fault} (h : readAfter n raw = .ok t)
    (hs : Statement.ofLine? (n + 1) t = some s) (hc : s.check = .error f) (rest : List Bytes)
    (p : Program) : readBody ⟨raw :: rest, n⟩ p = .error f := by
  rw [readBody, nextLine_cons_of_ok h]
  simp only [hs, hc]

end

/-! ## many steps -/

/-- a step that comes upon an unreadable line, with another step in front -/
theorem exists_isUnreadable_cons {r : Reader} (s : Step)
    (h : ∃ steps, ∃ a ∈ (r.perform s).2.answers steps, a.IsUnreadable) :
    ∃ steps, ∃ a ∈ r.answers steps, a.IsUnreadable := by
  obtain ⟨steps, a, ha, hu⟩ := h
  exact ⟨s :: steps, a, List.mem_cons_of_mem _ ha, hu⟩

theorem exists_isUnreadable_of_readBody {ls : List Bytes} {n m : Nat} {p : Program} {reason : Text}
    (h : readBody ⟨ls, n⟩ p = .error (.unreadable m reason)) :
    ∃ steps, ∃ a ∈ answers ⟨ls, n⟩ steps, a.IsUnreadable := by
  induction ls generalizing n p with
  | nil =>
    rw [readBody_end] at h
    cases h
  | cons raw rest ih =>
    cases hraw : readAfter n raw with
    | error f =>
      rw [readBody_of_error hraw] at h
      obtain rfl := Except.error.inj h
      refine ⟨[.nextLine], _, List.mem_cons_self .., m, reason, .inl ?_⟩
      rw [perform, nextLine_cons_of_error hraw]
    | ok t =>
      refine exists_isUnreadable_cons .nextLine ?_
      rw [perform, nextLine_cons_of_ok hraw]
      cases hs : Statement.ofLine? (n + 1) t with
      | none =>
        rw [readBody_of_blank hraw hs] at h
        exact ih h
      | some s =>
        cases hc : s.check with
        | ok x =>
          rw [readBody_of_statement hraw hs hc] at h
          exact ih h
        | error f =>
          -- what is wrong with a statement is not that its line is unreadable
          rw [readBody_of_wrong hraw hs hc] at h
          obtain rfl := Except.error.inj h
          cases Statement.check_eq_error_iff.mp hc

theorem exists_isUnreadable_of_readProgram {r : Reader} {m : Nat} {reason : Text}
    (h : r.readProgram = .error (.unreadable m reason)) :
    ∃ steps, ∃ a ∈ r.answers steps, a.IsUnreadable := by
  unfold readProgram at h
  cases hr : r.expectHeader with
  | mk answer r' =>
    rw [hr] at h
    cases answer with
    | error f =>
      obtain rfl := Except.error.inj h
      refine ⟨[.expectHeader], _, List.mem_cons_self .., m, reason, .inr ?_⟩
      rw [perform, hr]
    | ok u =>
      refine exists_isUnreadable_cons .expectHeader ?_
      rw [perform, hr]
      exact exists_isUnreadable_of_readBody h

end Source.Reader

/-! ## the analysis -/

namespace Analysis

variable {a : Analysis}

theorem result_readAll_of_stopped {f : Fault} (h : a.phase = .stopped f) (ls : List Bytes) :
    (a.readAll ls).result = .error f := by
  rw [readAll_of_stopped h, result, h]

/-- after the header -/
theorem result_readAll_body (h : a.phase = .body) (ls : List Bytes) :
    (a.readAll ls).result = Reader.readBody ⟨ls, a.line⟩ a.program := by
  induction ls generalizing a with
  | nil => rw [readAll_nil, result, h, Reader.readBody_end]
  | cons raw rest ih =>
    rw [readAll_cons, read_eq_turn (h ▸ Phase.not_stopped_body)]
    cases hraw : readAfter a.line raw with
    | error f =>
      rw [Reader.readBody_of_error hraw]
      exact result_readAll_of_stopped rfl rest
    | ok t =>
      rw [turn, h]
      cases hs : Statement.ofLine? (a.line + 1) t with
      | none =>
        rw [Phase.effect_of_code_eq_nil (Statement.ofLine?_eq_none_iff.mp hs),
          Reader.readBody_of_blank hraw hs]
        exact ih (a := a.pass) h
      | some s =>
        rw [Phase.effect_body hs]
        cases hc : s.check with
        | ok x =>
          rw [Reader.readBody_of_statement hraw hs hc]
          exact ih (a := a.take (.instruction x.1 x.2)) h
        | error f =>
          rw [Reader.readBody_of_wrong hraw hs hc]
          exact result_readAll_of_stopped rfl rest

/-- before the header -/
theorem result_readAll_preamble (h : a.phase = .preamble) (hp : a.program = .empty)
    (ls : List Bytes) : (a.readAll ls).result = Reader.readProgram ⟨ls, a.line⟩ := by
  induction ls generalizing a with
  | nil =>
    rw [readAll_nil, result, h]
    rfl
  | cons raw rest ih =>
    rw [readAll_cons, read_eq_turn (h ▸ Phase.not_stopped_preamble), Reader.readProgram,
      Reader.expectHeader_eq]
    cases hraw : readAfter a.line raw with
    | error f =>
      rw [Reader.nextLine_cons_of_error hraw]
      exact result_readAll_of_stopped rfl rest
    | ok t =>
      rw [Reader.nextLine_cons_of_ok hraw, turn, h]
      by_cases hc : code t = []
      · rw [Phase.effect_of_code_eq_nil hc]
        simp only [if_pos hc]
        exact ih (a := a.pass) h hp
      · rw [Phase.effect_preamble hc]
        simp only [if_neg hc]
        cases checkHeader (a.line + 1) (code t) with
        | ok u =>
          have hbody := result_readAll_body (a := a.take (.header (code t))) rfl rest
          have hempty : (a.take (.header (code t))).program = .empty := hp
          rwa [hempty] at hbody
        | error f => exact result_readAll_of_stopped rfl rest

end Analysis

/-- **What comes of a source is what a reader of it is led to.** -/
theorem parse_eq_readProgram (bs : Bytes) : parse bs = (Reader.ofBytes bs).readProgram :=
  Analysis.result_readAll_preamble rfl rfl (breakLines bs)

/-- An analysis that comes to rest on an unreadable line was led to it by a reader. -/
theorem exists_isUnreadable {bs : Bytes} {n : Nat} {reason : Text}
    (h : parse bs = .error (.unreadable n reason)) :
    ∃ steps, ∃ a ∈ (Reader.ofBytes bs).answers steps, a.IsUnreadable := by
  rw [parse_eq_readProgram] at h
  exact Reader.exists_isUnreadable_of_readProgram h

end Ippcode
