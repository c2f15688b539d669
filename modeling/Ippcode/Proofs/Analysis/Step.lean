import Ippcode.Analysis

/-!
# One line of an analysis

What a line does to a machine is said here once (`read_eq_turn`).  Whatever else is known of
`Analysis.read` follows from it, by what the lines in question bring.

* `Phase.effect`       what a line brings, by what the machine is about to meet;
* `Agree F R r r'`     two outcomes: values that `R` relates, or faults that `F` relates;
* `Tracks d g F a b`   two machines: `b` is `d` lines further down than `a`, its program is what `g`
                       makes of that of `a`, and they come to rest together, with faults that `F`
                       relates.  `Tracks.read` is one line, and `Tracks.result` the end.
-/

namespace Ippcode

open Source

/-! ## what a line brings -/

/-- what there is to do on a line, unless it has a fault -/
inductive Effect where
  | nothing
  | header (found : Text)
  | instruction (opcode : Text) (arguments : List Argument)

/-- what line `n`, whose text is `t`, brings: something to do, or a fault -/
def Phase.effect (phase : Phase) (n : Nat) (t : Text) : Except Fault Effect :=
  match phase with
  | .preamble =>
    if code t = [] then .ok .nothing
    else (checkHeader n (code t)).map fun _ => .header (code t)
  | .body =>
    match Statement.ofLine? n t with
    | none => .ok .nothing
    | some s => s.check.map fun x => .instruction x.1 x.2
  | .stopped _ => .ok .nothing

namespace Phase

/-- the machine is at rest -/
def Stopped (phase : Phase) : Prop := ∃ f, phase = stopped f

theorem not_stopped_preamble : ¬ preamble.Stopped := fun ⟨_, h⟩ => Phase.noConfusion h

theorem not_stopped_body : ¬ body.Stopped := fun ⟨_, h⟩ => Phase.noConfusion h

section

variable {n : Nat} {t : Text}

theorem effect_congr {t' : Text} (h : code t' = code t) (phase : Phase) (n : Nat) :
    phase.effect n t' = phase.effect n t := by
  cases phase <;> simp only [effect, Statement.ofLine?, h]

theorem effect_of_code_eq_nil (h : code t = []) (phase : Phase) (n : Nat) :
    phase.effect n t = .ok .nothing := by
  cases phase with
  | preamble => exact if_pos h
  | body => rw [effect, Statement.ofLine?_of_code_eq_nil h]
  | stopped f => rfl

/-- the first line with code -/
theorem effect_preamble (h : code t ≠ []) (n : Nat) :
    preamble.effect n t = (checkHeader n (code t)).map fun _ => .header (code t) :=
  if_neg h

/-- a line with code after it -/
theorem effect_body {s : Statement} (h : Statement.ofLine? n t = some s) :
    body.effect n t = s.check.map fun x => .instruction x.1 x.2 := by
  rw [effect, h]

end

end Phase

/-! ## what a machine does with it -/

namespace Analysis

def take (a : Analysis) : Effect → Analysis
  | .nothing => a.pass
  | .header found =>
    ⟨a.line + 1, .body, a.program, .headerFound (a.line + 1) found :: a.events⟩
  | .instruction opcode arguments =>
    let event := Event.accepted (a.line + 1) (a.program.numbered opcode arguments)
    ⟨a.line + 1, a.phase, a.program.push opcode arguments, event :: a.events⟩

/-- the machine after a line of text, by what it brings -/
def follow (a : Analysis) : Except Fault Effect → Analysis
  | .ok e => a.take e
  | .error f => a.pass.stop f

/-- the machine after a line, by how it is read -/
def turn (a : Analysis) : Except Fault Text → Analysis
  | .ok t => a.follow (a.phase.effect (a.line + 1) t)
  | .error f => a.stop f

variable {a : Analysis}

theorem seekHeader_eq_follow (a : Analysis) (t : Text) :
    a.seekHeader t = a.follow (Phase.preamble.effect (a.line + 1) t) := by
  by_cases h : code t = []
  · rw [Phase.effect_of_code_eq_nil h, seekHeader, if_pos h]
    rfl
  · rw [Phase.effect_preamble h, seekHeader, if_neg h]
    cases checkHeader (a.line + 1) (code t) <;> rfl

theorem readStatement_eq_follow (a : Analysis) (t : Text) :
    a.readStatement t = a.follow (Phase.body.effect (a.line + 1) t) := by
  unfold readStatement Phase.effect
  cases Statement.ofLine? (a.line + 1) t with
  | none => rfl
  | some s => cases hc : s.check <;> simp only [hc] <;> rfl

/-- **A machine that is not at rest reads a line by what the line brings.** -/
theorem read_eq_turn (h : ¬ a.phase.Stopped) (raw : Bytes) :
    a.read raw = a.turn (readAfter a.line raw) := by
  unfold read turn
  cases hp : a.phase with
  | stopped f => exact absurd ⟨f, hp⟩ h
  | preamble =>
    cases readAfter a.line raw with
    | ok t => exact seekHeader_eq_follow a t
    | error f => rfl
  | body =>
    cases readAfter a.line raw with
    | ok t => exact readStatement_eq_follow a t
    | error f => rfl

end Analysis

/-! ## outcomes that agree -/

/-- two values that `R` relates, or two faults that `F` relates -/
inductive Agree {α β : Type} (F : Fault → Fault → Prop) (R : α → β → Prop) :
    Except Fault α → Except Fault β → Prop where
  | ok {x : α} {y : β} : R x y → Agree F R (.ok x) (.ok y)
  | error {f f' : Fault} : F f f' → Agree F R (.error f) (.error f')

section

variable {α β γ δ : Type} {F : Fault → Fault → Prop} {R : α → β → Prop} {r : Except Fault α}
  {r' : Except Fault β}

theorem Agree.refl {S : α → α → Prop} (hF : ∀ f, F f f) (hS : ∀ x, S x x) (r : Except Fault α) :
    Agree F S r r := by
  cases r with
  | ok x => exact .ok (hS x)
  | error f => exact .error (hF f)

theorem Agree.ok_or_error (h : Agree F R r r') :
    (∃ x y, r = .ok x ∧ r' = .ok y ∧ R x y) ∨
      ∃ f f', r = .error f ∧ r' = .error f' ∧ F f f' := by
  cases h with
  | ok hR => exact .inl ⟨_, _, rfl, rfl, hR⟩
  | error hF => exact .inr ⟨_, _, rfl, rfl, hF⟩

theorem Agree.map (h : Agree F R r r') {g : α → γ} {g' : β → δ} {S : γ → δ → Prop}
    (hS : ∀ x y, R x y → S (g x) (g' y)) : Agree F S (r.map g) (r'.map g') := by
  cases h with
  | ok hR => exact .ok (hS _ _ hR)
  | error hF => exact .error hF

/-- where `F` is a function, so is what becomes of a fault -/
theorem agree_mapError {S : α → α → Prop} (hS : ∀ x, S x x) (m : Fault → Fault)
    (r : Except Fault α) : Agree (fun f f' => f' = m f) S r (r.mapError m) := by
  cases r with
  | ok x => exact .ok (hS x)
  | error f => exact .error rfl

theorem eq_of_agree {m : Fault → Fault} {g : α → β}
    (h : Agree (fun f f' => f' = m f) (fun x y => y = g x) r r') :
    r' = (r.mapError m).map g := by
  cases h with
  | ok hR => rw [hR]; rfl
  | error hF => rw [hF]; rfl

end

/-! ## two machines -/

/-- the same effect; the letters of a header do not matter -/
inductive Effect.Same : Effect → Effect → Prop where
  | nothing : Same .nothing .nothing
  | header (found found' : Text) : Same (.header found) (.header found')
  | instruction (opcode : Text) (arguments : List Argument) :
      Same (.instruction opcode arguments) (.instruction opcode arguments)

theorem Effect.Same.refl (e : Effect) : Same e e := by
  cases e with
  | nothing => exact .nothing
  | header found => exact .header found found
  | instruction opcode arguments => exact .instruction opcode arguments

/-- the same place, or faults that `F` relates -/
inductive Phase.Matches (F : Fault → Fault → Prop) : Phase → Phase → Prop where
  | preamble : Matches F .preamble .preamble
  | body : Matches F .body .body
  | stopped {f f' : Fault} : F f f' → Matches F (.stopped f) (.stopped f')

theorem Phase.Matches.refl {F : Fault → Fault → Prop} (hF : ∀ f, F f f) (phase : Phase) :
    phase.Matches F phase := by
  cases phase with
  | preamble => exact .preamble
  | body => exact .body
  | stopped f => exact .stopped (hF f)

/-- Where no fault is in play, it does not matter how faults are related. -/
theorem Phase.matches_of_not_stopped {phase : Phase} (h : ¬ phase.Stopped)
    (F : Fault → Fault → Prop) : phase.Matches F phase := by
  cases phase with
  | preamble => exact .preamble
  | body => exact .body
  | stopped f => exact absurd ⟨f, rfl⟩ h

theorem Phase.Matches.stopped_iff {F : Fault → Fault → Prop} {phase phase' : Phase}
    (h : phase.Matches F phase') : phase.Stopped ↔ phase'.Stopped := by
  cases h with
  | preamble => exact .rfl
  | body => exact .rfl
  | stopped => exact ⟨fun _ => ⟨_, rfl⟩, fun _ => ⟨_, rfl⟩⟩

namespace Analysis

/-- `b` is `d` lines further down than `a`, with the program that `g` makes of that of `a` -/
structure Tracks (d : Nat) (g : Program → Program) (F : Fault → Fault → Prop) (a b : Analysis) :
    Prop where
  line : b.line = a.line + d
  phase : a.phase.Matches F b.phase
  program : b.program = g a.program

section

variable {d : Nat} {g : Program → Program} {F : Fault → Fault → Prop} {a b : Analysis}

theorem Tracks.line_succ (h : Tracks d g F a b) : b.line + 1 = a.line + 1 + d := by
  rw [h.line, Nat.add_right_comm]

theorem Tracks.pass (h : Tracks d g F a b) : Tracks d g F a.pass b.pass :=
  ⟨h.line_succ, h.phase, h.program⟩

theorem Tracks.stop (h : Tracks d g F a b) {f f' : Fault} (hf : F f f') :
    Tracks d g F (a.stop f) (b.stop f') :=
  ⟨h.line, .stopped hf, h.program⟩

section

variable (hg : ∀ p opcode arguments, g (p.push opcode arguments) = (g p).push opcode arguments)
include hg

theorem Tracks.take (h : Tracks d g F a b) {e e' : Effect} (he : e.Same e') :
    Tracks d g F (a.take e) (b.take e') := by
  cases he with
  | nothing => exact h.pass
  | header found found' => exact ⟨h.line_succ, .body, h.program⟩
  | instruction opcode arguments =>
    refine ⟨h.line_succ, h.phase, ?_⟩
    show b.program.push opcode arguments = g (a.program.push opcode arguments)
    rw [h.program, hg]

theorem Tracks.follow (h : Tracks d g F a b) {r r' : Except Fault Effect}
    (hr : Agree F Effect.Same r r') : Tracks d g F (a.follow r) (b.follow r') := by
  cases hr with
  | ok he => exact h.take hg he
  | error hf => exact h.pass.stop hf

theorem Tracks.turn (h : Tracks d g F a b) {r r' : Except Fault Text}
    (hr : Agree F (fun t t' => Agree F Effect.Same (a.phase.effect (a.line + 1) t)
      (b.phase.effect (b.line + 1) t')) r r') : Tracks d g F (a.turn r) (b.turn r') := by
  cases hr with
  | ok he => exact h.follow hg he
  | error hf => exact h.stop hf

/-- **One more line on each side.**  It may be another line, as long as the two are read alike and
bring the same. -/
theorem Tracks.read (h : Tracks d g F a b) {l l' : Bytes}
    (hl : ¬ a.phase.Stopped →
      Agree F (fun t t' => Agree F Effect.Same (a.phase.effect (a.line + 1) t)
        (b.phase.effect (b.line + 1) t')) (readAfter a.line l) (readAfter b.line l')) :
    Tracks d g F (a.read l) (b.read l') := by
  by_cases ha : a.phase.Stopped
  · obtain ⟨f', hb⟩ := h.phase.stopped_iff.mp ha
    obtain ⟨f, ha⟩ := ha
    rw [read_of_stopped ha, read_of_stopped hb]
    exact h
  · have hb : ¬ b.phase.Stopped := fun hb => ha (h.phase.stopped_iff.mpr hb)
    rw [read_eq_turn ha, read_eq_turn hb]
    exact h.turn hg (hl ha)

end

theorem Tracks.result (h : Tracks d g F a b)
    (hF : F (.missingHeader header) (.missingHeader header)) :
    Agree F (fun p q => q = g p) a.result b.result := by
  have hphase := h.phase
  unfold Analysis.result
  rw [h.program]
  generalize a.phase = phase at hphase ⊢
  generalize b.phase = phase' at hphase ⊢
  cases hphase with
  | preamble => exact .error hF
  | body => exact .ok rfl
  | stopped hf => exact .error hf

end

end Analysis

end Ippcode
