import Ippcode.Program
import Ippcode.Proofs.Utf8.Exact
import Ippcode.Sink

/-!
# Writing to a sink with a limit

A text is delivered by writing its bytes.  What is left of them is offered again and again; the sink
takes a piece each time, of whatever size, until nothing is left or it takes no more.  Then it is
asked to pass on what it has.

* `prefix_fitting_iff`               the beginnings of what fits are the beginnings that fit;
* `Limit`                            the sinks with a limit;
* `Limit.Writes`, `Limit.Delivers`   the writing, piece by piece, and all that makes a delivery;
* `writes_iff`, `delivers_iff`       the pieces do not matter: a delivery is what `Sink.delivery`
                                     says, and the bytes that have been taken are the first ones;
* `encode_prefix_take_iff`           of these bytes, `Sink.taken` has every text that is there whole.
-/

namespace Ippcode

/-! ## beginnings that fit -/

namespace Utf8

/-- **What fits is the longest beginning that does.** -/
theorem prefix_fitting_iff {n : Nat} {u t : Text} :
    u <+: fitting n t ↔ u <+: t ∧ size u ≤ n := by
  induction t generalizing n u with
  | nil =>
    rw [fitting_nil, List.prefix_nil]
    refine ⟨fun h => ⟨h, ?_⟩, And.left⟩
    rw [h, size_nil]
    exact Nat.zero_le n
  | cons c t ih =>
    cases u with
    | nil => exact iff_of_true List.nil_prefix ⟨List.nil_prefix, Nat.zero_le n⟩
    | cons d u =>
      rw [fitting_cons, size_cons, List.cons_prefix_cons]
      split
      · next hc =>
        rw [List.cons_prefix_cons, ih]
        refine ⟨fun ⟨hd, hu, hs⟩ => ⟨⟨hd, hu⟩, ?_⟩, fun ⟨⟨hd, hu⟩, hs⟩ => ⟨hd, hu, ?_⟩⟩
        · rw [hd]
          omega
        · rw [hd] at hs
          omega
      · next hc =>
        refine iff_of_false (by simp) fun ⟨⟨hd, _⟩, hs⟩ => hc ?_
        rw [hd] at hs
        omega

theorem fitting_isPrefix (n : Nat) (t : Text) : fitting n t <+: t :=
  (prefix_fitting_iff.mp (List.prefix_refl _)).1

/-- More room is never worse. -/
theorem fitting_isPrefix_fitting {n m : Nat} (h : n ≤ m) (t : Text) : fitting n t <+: fitting m t :=
  prefix_fitting_iff.mpr ⟨fitting_isPrefix n t, Nat.le_trans (size_fitting_le n t) h⟩

/-- The texts at the beginning of the first bytes of a text are the beginnings that fit. -/
theorem encode_prefix_take_iff {n : Nat} {u t : Text} :
    encode u <+: (encode t).take n ↔ u <+: fitting n t := by
  rw [List.prefix_take_iff, prefix_fitting_iff, length_encode]
  refine and_congr_left fun _ => ⟨?_, ?_⟩
  · intro h
    obtain ⟨a, ha⟩ := h
    obtain ⟨v, ht, -⟩ := encode_append_eq_iff.mp ha
    exact ⟨v, ht.symm⟩
  · intro h
    obtain ⟨v, rfl⟩ := h
    exact ⟨encode v, (encode_append u v).symm⟩

end Utf8

open Utf8

/-! ## sinks with a limit -/

/-- what sets a sink with a limit apart from another one -/
inductive Limit where
  /-- once it is full it takes nothing, without a reason -/
  | stalling
  /-- once it is full it fails -/
  | bounded
  /-- it fails likewise, and also when it is to pass on what it has taken -/
  | unflushable
deriving DecidableEq, Repr

namespace Limit

def sink (room : Nat) : Limit → Sink
  | stalling => .stalling room
  | bounded => .bounded room
  | unflushable => .unflushable room

/-- what becomes of bytes that are offered -/
inductive Answer where
  | took (n : Nat)
  | failed (reason : Text)

/-- the answers of a sink with room for `left` bytes that is offered the bytes `bs` -/
inductive Answers : Limit → Nat → Bytes → Answer → Prop where
  | piece {m : Limit} {left k : Nat} {bs : Bytes} : 0 < k → k ≤ left → k ≤ bs.length →
      Answers m left bs (.took k)
  | stalled {bs : Bytes} : Answers stalling 0 bs (.took 0)
  | full {m : Limit} {bs : Bytes} : m ≠ stalling → Answers m 0 bs (.failed "sink is full".toList)

/-- The bytes `bs` are offered until the sink has all of them.  In the end it has taken some of
them, and there is a reason if not all. -/
inductive Writes (m : Limit) : Nat → Bytes → Bytes → Except Text Unit → Prop where
  | all (left : Nat) : Writes m left [] [] (.ok ())
  | piece {left k : Nat} {bs taken : Bytes} {r : Except Text Unit} : bs ≠ [] →
      Answers m left bs (.took (k + 1)) → Writes m (left - (k + 1)) (bs.drop (k + 1)) taken r →
      Writes m left bs (bs.take (k + 1) ++ taken) r
  | short {left : Nat} {bs : Bytes} : bs ≠ [] → Answers m left bs (.took 0) →
      Writes m left bs [] (.error "failed to write whole buffer".toList)
  | failed {left : Nat} {bs : Bytes} {reason : Text} : bs ≠ [] →
      Answers m left bs (.failed reason) → Writes m left bs [] (.error reason)

/-- A text is written and then flushed. -/
inductive Delivers (m : Limit) (room : Nat) (t : Text) (taken : Bytes) :
    Except Fault Unit → Prop where
  | unwritten {reason : Text} : Writes m room (encode t) taken (.error reason) →
      Delivers m room t taken (.error (.undelivered reason))
  | unflushed : m = unflushable → Writes m room (encode t) taken (.ok ()) →
      Delivers m room t taken (.error (.undelivered "flush failed".toList))
  | flushed : m ≠ unflushable → Writes m room (encode t) taken (.ok ()) →
      Delivers m room t taken (.ok ())

/-! ## the writing -/

section

variable {m : Limit} {left room : Nat} {bs taken : Bytes} {t : Text}

theorem full_sink (m : Limit) (room room' : Nat) : (m.sink room).full = (m.sink room').full := by
  cases m <;> rfl

/-- how the writing of `bs` ends, with room for `left` bytes -/
def outcome (m : Limit) (left : Nat) (bs : Bytes) : Except Text Unit :=
  if bs.length ≤ left then .ok () else .error (m.sink left).full

theorem outcome_of_full (hne : bs ≠ []) : outcome m 0 bs = .error (m.sink 0).full := by
  have hpos := List.length_pos_iff.mpr hne
  exact if_neg (by omega)

theorem outcome_drop {k : Nat} (hk : k ≤ left) (hb : k ≤ bs.length) :
    outcome m (left - k) (bs.drop k) = outcome m left bs := by
  have hlength : (bs.drop k).length ≤ left - k ↔ bs.length ≤ left := by
    rw [List.length_drop]
    omega
  simp only [outcome, hlength, full_sink m (left - k) left]

/-- A piece more or less does not matter. -/
theorem Writes.eq {r : Except Text Unit} (h : Writes m left bs taken r) :
    taken = bs.take left ∧ r = outcome m left bs := by
  induction h with
  | all left => exact ⟨List.take_nil.symm, (if_pos (Nat.zero_le left)).symm⟩
  | @piece left k bs taken r _ ha _ ih =>
    cases ha with
    | piece _ hleft hlength =>
      obtain ⟨rfl, rfl⟩ := ih
      refine ⟨?_, outcome_drop hleft hlength⟩
      rw [← List.take_add, Nat.add_sub_cancel' hleft]
  | short hne ha =>
    cases ha with
    | piece hpos => exact absurd hpos (Nat.lt_irrefl 0)
    | stalled =>
      rw [outcome_of_full hne]
      exact ⟨rfl, rfl⟩
  | failed hne ha =>
    cases ha with
    | full hm =>
      refine ⟨rfl, ?_⟩
      rw [outcome_of_full hne]
      cases m with
      | stalling => exact absurd rfl hm
      | bounded => rfl
      | unflushable => rfl

theorem exists_writes_full (m : Limit) (bs : Bytes) : ∃ taken r, Writes m 0 bs taken r := by
  by_cases hne : bs = []
  · rw [hne]
    exact ⟨[], _, .all 0⟩
  · by_cases hm : m = stalling
    · rw [hm]
      exact ⟨[], _, .short hne .stalled⟩
    · exact ⟨[], _, .failed hne (.full hm)⟩

/-- Writing comes to an end. -/
theorem exists_writes (m : Limit) (left : Nat) (bs : Bytes) :
    ∃ taken r, Writes m left bs taken r := by
  induction left generalizing bs with
  | zero => exact exists_writes_full m bs
  | succ left ih =>
    by_cases hne : bs = []
    · rw [hne]
      exact ⟨[], _, .all _⟩
    · -- the sink may always take a single byte
      obtain ⟨taken, r, h⟩ := ih (bs.drop 1)
      have hpos := List.length_pos_iff.mpr hne
      exact ⟨_, r, .piece (k := 0) hne (.piece Nat.one_pos (by omega) hpos) h⟩

/-- **However a sink cuts what it takes, it takes as much as it can, and the writing ends well if
that is all.** -/
theorem writes_iff {r : Except Text Unit} :
    Writes m left bs taken r ↔ taken = bs.take left ∧ r = outcome m left bs := by
  refine ⟨Writes.eq, ?_⟩
  intro h
  obtain ⟨rfl, rfl⟩ := h
  obtain ⟨taken, r, h⟩ := exists_writes m left bs
  obtain ⟨rfl, rfl⟩ := h.eq
  exact h

/-! ## the delivery -/

theorem delivery_of_le (h : size t ≤ room) : (m.sink room).delivery t =
    if m = unflushable then .error (.undelivered "flush failed".toList) else .ok () := by
  have hholds : (m.sink room).holds t = true := by
    cases m <;> exact decide_eq_true h
  rw [Sink.delivery, if_pos hholds]
  cases m <;> rfl

theorem delivery_of_lt (h : room < size t) :
    (m.sink room).delivery t = .error (.undelivered (m.sink room).full) := by
  have hholds : ¬ (m.sink room).holds t = true := by
    cases m <;> exact fun hd => absurd (of_decide_eq_true hd) (Nat.not_le.mpr h)
  rw [Sink.delivery, if_neg hholds]

theorem taken_sink (m : Limit) (room : Nat) (t : Text) :
    (m.sink room).taken t = fitting room t := by
  cases m <;> rfl

theorem outcome_encode_of_le (h : size t ≤ room) : outcome m room (encode t) = .ok () :=
  if_pos (by rwa [length_encode])

theorem outcome_encode_of_lt (h : room < size t) :
    outcome m room (encode t) = .error (m.sink room).full :=
  if_neg (by rwa [length_encode, Nat.not_le])

/-- **A delivery is what its sink says it is.** -/
theorem delivers_iff {r : Except Fault Unit} :
    Delivers m room t taken r ↔ taken = (encode t).take room ∧ r = (m.sink room).delivery t := by
  rcases Nat.lt_or_ge room (size t) with hlt | hle
  · rw [delivery_of_lt hlt]
    refine ⟨fun h => ?_, ?_⟩
    · cases h with
      | unwritten h =>
        obtain ⟨htaken, hreason⟩ := writes_iff.mp h
        rw [outcome_encode_of_lt hlt, Except.error.injEq] at hreason
        exact ⟨htaken, by rw [hreason]⟩
      | unflushed _ h | flushed _ h =>
        have hok := (writes_iff.mp h).2
        rw [outcome_encode_of_lt hlt] at hok
        cases hok
    · intro h
      obtain ⟨htaken, rfl⟩ := h
      exact .unwritten (writes_iff.mpr ⟨htaken, (outcome_encode_of_lt hlt).symm⟩)
  · rw [delivery_of_le hle]
    refine ⟨fun h => ?_, ?_⟩
    · cases h with
      | unwritten h =>
        have herror := (writes_iff.mp h).2
        rw [outcome_encode_of_le hle] at herror
        cases herror
      | unflushed hm h => exact ⟨(writes_iff.mp h).1, (if_pos hm).symm⟩
      | flushed hm h => exact ⟨(writes_iff.mp h).1, (if_neg hm).symm⟩
    · intro h
      obtain ⟨htaken, rfl⟩ := h
      have hwrites : Writes m room (encode t) taken (.ok ()) :=
        writes_iff.mpr ⟨htaken, (outcome_encode_of_le hle).symm⟩
      by_cases hm : m = unflushable
      · rw [if_pos hm]
        exact .unflushed hm hwrites
      · rw [if_neg hm]
        exact .flushed hm hwrites

theorem delivery_eq_ok_iff :
    (m.sink room).delivery t = .ok () ↔ size t ≤ room ∧ m ≠ unflushable := by
  rcases Nat.lt_or_ge room (size t) with hlt | hle
  · rw [delivery_of_lt hlt]
    exact iff_of_false (fun h => nomatch h) fun h => absurd h.1 (Nat.not_le.mpr hlt)
  · rw [delivery_of_le hle]
    by_cases hm : m = unflushable
    · rw [if_pos hm]
      exact iff_of_false (fun h => nomatch h) fun h => h.2 hm
    · rw [if_neg hm]
      exact iff_of_true rfl ⟨hle, hm⟩

/-- the reason for which a delivery fails -/
theorem exists_reason {f : Fault} (h : (m.sink room).delivery t = .error f) :
    ∃ reason, f = .undelivered reason ∧ f.exitCode = 12 ∧
      (reason = "flush failed".toList ↔ size t ≤ room) ∧
      (room < size t → reason = (m.sink room).full) := by
  rcases Nat.lt_or_ge room (size t) with hlt | hle
  · rw [delivery_of_lt hlt] at h
    obtain rfl := Except.error.inj h
    refine ⟨(m.sink room).full, rfl, rfl, iff_of_false ?_ (Nat.not_le.mpr hlt), fun _ => rfl⟩
    rw [full_sink m room 0]
    cases m <;> decide
  · rw [delivery_of_le hle] at h
    split at h
    · obtain rfl := Except.error.inj h
      exact ⟨_, rfl, rfl, iff_of_true rfl hle, fun hlt => absurd hle (Nat.not_le.mpr hlt)⟩
    · cases h

end

end Limit

/-! ## documents -/

/-- **A document is delivered whole, or as much of it as there is room for.**  A delivery goes well
when all of it has been taken and is passed on; otherwise there is one reason.  What has been taken
is the longest beginning of the document that fits, and it is the same however the writing goes. -/
theorem Program.document_delivery (p : Program) (m : Limit) (room : Nat) :
    let D := p.document
    let s := m.sink room
    (s.delivery D = .ok () ↔ Utf8.size D ≤ room ∧ m ≠ .unflushable) ∧
    (s.taken D <+: D ∧ Utf8.size (s.taken D) ≤ room ∧ (Utf8.size D ≤ room → s.taken D = D) ∧
      ∀ u, u <+: D → Utf8.size u ≤ room → u <+: s.taken D) ∧
    (∀ f, s.delivery D = .error f → ∃ reason, f = .undelivered reason ∧ f.exitCode = 12 ∧
      (reason = "flush failed".toList ↔ Utf8.size D ≤ room) ∧
      (room < Utf8.size D → reason = s.full)) ∧
    (∀ room', room ≤ room' → s.taken D <+: (m.sink room').taken D) ∧
    (∀ taken r, m.Delivers room D taken r ↔ taken = (encode D).take room ∧ r = s.delivery D) ∧
    ∀ u, encode u <+: (encode D).take room ↔ u <+: s.taken D := by
  intro D s
  have htaken : s.taken D = fitting room D := m.taken_sink room D
  refine ⟨Limit.delivery_eq_ok_iff, ?_, fun f hf => Limit.exists_reason hf, ?_,
    fun taken r => Limit.delivers_iff, ?_⟩
  · rw [htaken]
    refine ⟨fitting_isPrefix room D, size_fitting_le room D, fitting_of_size_le, ?_⟩
    exact fun u hu hs => prefix_fitting_iff.mpr ⟨hu, hs⟩
  · intro room' hroom
    rw [htaken, Limit.taken_sink]
    exact fitting_isPrefix_fitting hroom D
  · intro u
    rw [htaken]
    exact encode_prefix_take_iff

end Ippcode
