import Ippcode.Instruction
import Ippcode.Proofs.Operand.Grammar
import Ippcode.Proofs.Text.LetterCase
import Ippcode.Xml
import Mathlib.Data.List.Forall2

/-!
# What passes the check, and what is wrong with a statement that does not

The instruction set, read by its opcodes:

* `lookup?_eq_some_iff`    no two opcodes differ in letter case alone, so an opcode has one entry;
* `opcode_eq_upper`        the entry holds the opcode in capitals;
* `clean_opcode`, `not_special_opcode`   opcodes are words of code, and need no escapes.

Statements, checked against it:

* `check_eq_ok_iff`     the operands of a statement that passes are the spellings of arguments, each
                        of the class its position asks for;
* `Wrong s f n`         the fault of a statement, with the number that a process reports for it;
* `check_eq_error_iff`  every other statement has one, and it is the one that is found;
* `accepted_iff`        a line that passes, by all the fields of its code: an operand with a
                        separator in it never passes.
-/

namespace Ippcode

open Text Source

/-! ## the entries of the table -/

namespace Table

theorem eq_of_lower_eq : ∀ e ∈ entries, ∀ e' ∈ entries,
    lower e.opcode = lower e'.opcode → e = e' := by decide +kernel

/-- **The entry that is found is the only one whose opcode is spelled like the token.** -/
theorem lookup?_eq_some_iff {token : Text} {e : Entry} :
    lookup? token = some e ↔ e ∈ entries ∧ e.opcode.sameUpToCase token = true := by
  refine ⟨fun h => ⟨mem_entries_of_lookup? h, sameUpToCase_of_lookup? h⟩, fun ⟨he, hs⟩ => ?_⟩
  cases hl : lookup? token with
  | none =>
    have := lookup?_eq_none_iff.mp hl e he
    rw [hs] at this
    exact absurd this.symm Bool.false_ne_true
  | some e' =>
    have hs' := sameUpToCase_of_lookup? hl
    rw [sameUpToCase_iff] at hs hs'
    rw [eq_of_lower_eq e' (mem_entries_of_lookup? hl) e he (hs'.trans hs.symm)]

theorem upper_opcode : ∀ e ∈ entries, upper e.opcode = e.opcode := by decide +kernel

theorem opcode_eq_upper {token : Text} {e : Entry} (h : lookup? token = some e) :
    e.opcode = upper token := by
  rw [← upper_eq_of_sameUpToCase (sameUpToCase_of_lookup? h),
    upper_opcode e (mem_entries_of_lookup? h)]

theorem arity_le : ∀ e ∈ entries, e.arity ≤ 3 := by decide

theorem clean_opcode : ∀ e ∈ entries, ∀ c ∈ e.opcode, c ∉ boundaries := by decide

theorem opcode_ne_nil : ∀ e ∈ entries, e.opcode ≠ [] := by decide

theorem not_special_opcode : ∀ e ∈ entries, ∀ c ∈ e.opcode, Xml.isSpecial c = false := by decide

theorem isWord_opcode {e : Entry} (he : e ∈ entries) : IsWord e.opcode :=
  isWord_of_clean (opcode_ne_nil e he) (clean_opcode e he)

/-- The characters that end words are no letters, so the spelling of an opcode is a word too. -/
theorem isWord_token {token : Text} {e : Entry} (h : lookup? token = some e) : IsWord token := by
  have hs := sameUpToCase_iff.mp (sameUpToCase_of_lookup? h)
  have hkeep : ∀ c ∈ boundaries, c.toLower = c := by decide
  refine isWord_of_clean ?_ fun c hc hb => ?_
  · rintro rfl
    exact opcode_ne_nil e (mem_entries_of_lookup? h) (List.map_eq_nil_iff.mp hs)
  · have hm : c ∈ lower e.opcode := by
      rw [hs, ← hkeep c hb]
      exact List.mem_map_of_mem hc
    have hclean : ∀ e ∈ entries, ∀ c ∈ lower e.opcode, c ∉ boundaries := by decide
    exact hclean e (mem_entries_of_lookup? h) c hm hb

end Table

/-! ## operands of the classes asked for -/

theorem OperandClass.forall₂_word_iff {cs : List OperandClass} {ts : List Text} :
    List.Forall₂ Word cs ts ↔
      ∃ as, List.Forall₂ Admits cs as ∧ as.map Argument.spelling = ts := by
  refine ⟨fun h => ?_, ?_⟩
  · induction h with
    | nil => exact ⟨[], .nil, rfl⟩
    | cons hw _ ih =>
      obtain ⟨a, ha, rfl⟩ := word_iff.mp hw
      obtain ⟨as, has, rfl⟩ := ih
      exact ⟨a :: as, .cons ha has, rfl⟩
  · intro h
    obtain ⟨as, has, rfl⟩ := h
    induction has with
    | nil => exact .nil
    | cons ha _ ih => exact .cons (word_iff.mpr ⟨_, ha, rfl⟩) ih

theorem OperandClass.isWellSpelled_of_forall₂ {cs : List OperandClass} {as : List Argument}
    (h : List.Forall₂ Admits cs as) : ∀ a ∈ as, a.IsWellSpelled := by
  induction h with
  | nil => simp
  | cons ha _ ih => exact List.forall_mem_cons.mpr ⟨isWellSpelled ha, ih⟩

/-- Operands that belong to their classes are words. -/
theorem OperandClass.isWord_of_forall₂ {cs : List OperandClass} {as : List Argument}
    (h : List.Forall₂ Admits cs as) : ∀ w ∈ as.map Argument.spelling, IsWord w :=
  List.forall_mem_map.mpr fun a ha => a.isWord_spelling (isWellSpelled_of_forall₂ h a ha)

theorem OperandClass.read?_eq_none_iff_not_word {c : OperandClass} {t : Text} :
    c.read? t = none ↔ ¬ c.Word t := by
  rw [read?_eq_none_iff, word_iff, not_exists]
  refine forall_congr' fun a => ?_
  rw [not_and]

/-! ## the first operand outside its class -/

namespace OperandClass

/-- `i` is the least position whose word `t` is outside its class `c` -/
structure FirstOutside (cs : List OperandClass) (ts : List Text) (i : Nat) (c : OperandClass)
    (t : Text) : Prop where
  class_eq : cs[i]? = some c
  word_eq : ts[i]? = some t
  outside : ¬ c.Word t
  before : ∀ j < i, ∀ c' t', cs[j]? = some c' → ts[j]? = some t' → c'.Word t'

variable {c c' : OperandClass} {t t' : Text} {cs : List OperandClass} {ts : List Text} {i : Nat}

theorem firstOutside_cons_of_not_word (h : ¬ c.Word t) :
    FirstOutside (c :: cs) (t :: ts) i c' t' ↔ i = 0 ∧ c' = c ∧ t' = t := by
  refine ⟨fun hf => ?_, ?_⟩
  · cases i with
    | zero => exact ⟨rfl, (Option.some.inj hf.class_eq).symm, (Option.some.inj hf.word_eq).symm⟩
    | succ i => exact absurd (hf.before 0 (Nat.succ_pos i) c t rfl rfl) h
  · intro h'
    obtain ⟨rfl, rfl, rfl⟩ := h'
    exact ⟨rfl, rfl, h, fun j hj => absurd hj (Nat.not_lt_zero j)⟩

theorem firstOutside_cons_of_word (h : c.Word t) :
    FirstOutside (c :: cs) (t :: ts) i c' t' ↔ ∃ j, i = j + 1 ∧ FirstOutside cs ts j c' t' := by
  refine ⟨fun hf => ?_, ?_⟩
  · cases i with
    | zero =>
      obtain rfl := Option.some.inj hf.class_eq
      obtain rfl := Option.some.inj hf.word_eq
      exact absurd h hf.outside
    | succ i =>
      refine ⟨i, rfl, hf.class_eq, hf.word_eq, hf.outside, ?_⟩
      intro j hj
      exact hf.before (j + 1) (Nat.succ_lt_succ hj)
  · intro h'
    obtain ⟨i, rfl, hf⟩ := h'
    refine ⟨hf.class_eq, hf.word_eq, hf.outside, ?_⟩
    intro j hj d u hd hu
    cases j with
    | zero =>
      obtain rfl := Option.some.inj hd
      obtain rfl := Option.some.inj hu
      exact h
    | succ j => exact hf.before j (Nat.lt_of_succ_lt_succ hj) d u hd hu

end OperandClass

namespace Source.Statement

/-! ## operands -/

section

variable (line : Nat) (opcode : Text)

theorem readOperands_eq_ok_iff {n : Nat} {cs : List OperandClass} {ts : List Text}
    {as : List Argument} (hl : ts.length = cs.length) :
    readOperands line opcode n cs ts = .ok as ↔
      List.Forall₂ OperandClass.Admits cs as ∧ as.map Argument.spelling = ts := by
  induction cs generalizing n ts as with
  | nil =>
    obtain rfl := List.length_eq_zero_iff.mp hl
    rw [readOperands_nil_left, Except.ok.injEq, List.forall₂_nil_left_iff]
    refine ⟨fun h => ⟨h.symm, by rw [← h]; rfl⟩, fun h => h.1.symm⟩
  | cons c cs ih =>
    cases ts with
    | nil => simp at hl
    | cons t ts =>
      have hl' : ts.length = cs.length := Nat.succ.inj hl
      cases hr : c.read? t with
      | none =>
        rw [readOperands_cons_of_none hr]
        refine ⟨fun h => ?_, fun ⟨has, ht⟩ => ?_⟩
        · cases h
        · cases has with
          | cons ha _ =>
            have hspell := (List.cons.inj ht).1
            exact absurd hspell (OperandClass.read?_eq_none_iff.mp hr _ ha)
      | some a =>
        obtain ⟨ha, rfl⟩ := OperandClass.read?_eq_some_iff.mp hr
        rw [readOperands_cons_of_some hr]
        refine ⟨fun h => ?_, fun ⟨has, ht⟩ => ?_⟩
        · cases hrest : readOperands line opcode (n + 1) cs ts with
          | error f =>
            rw [hrest] at h
            cases h
          | ok bs =>
            rw [hrest] at h
            obtain rfl : a :: bs = as := Except.ok.inj h
            obtain ⟨hbs, rfl⟩ := (ih hl').mp hrest
            exact ⟨.cons ha hbs, rfl⟩
        · cases has with
          | @cons _ b _ bs hb hbs =>
            obtain ⟨hspell, hts⟩ := List.cons.inj ht
            -- an operand is read in one way only
            have hread : c.read? a.spelling = some b :=
              OperandClass.read?_eq_some_iff.mpr ⟨hb, hspell⟩
            obtain rfl : a = b := Option.some.inj (hr.symm.trans hread)
            rw [(ih hl').mpr ⟨hbs, hts⟩]
            rfl

/-- the fault is that of the first operand outside its class -/
theorem readOperands_eq_error_iff {n : Nat} {cs : List OperandClass} {ts : List Text} {f : Fault} :
    readOperands line opcode n cs ts = .error f ↔ ∃ i c t,
      OperandClass.FirstOutside cs ts i c t ∧ f = .operandClass line opcode (n + i) t c.name := by
  induction cs generalizing n ts with
  | nil =>
    rw [readOperands_nil_left]
    refine ⟨fun h => (by cases h), ?_⟩
    intro h
    obtain ⟨i, c, t, ⟨hc, -⟩, -⟩ := h
    simp at hc
  | cons c cs ih =>
    cases ts with
    | nil =>
      refine ⟨fun h => ?_, ?_⟩
      · unfold readOperands at h
        cases h
      · intro h
        obtain ⟨i, c, t, ⟨-, ht, -⟩, -⟩ := h
        simp at ht
    | cons t ts =>
      cases hr : c.read? t with
      | none =>
        have hw : ¬ c.Word t := OperandClass.read?_eq_none_iff_not_word.mp hr
        simp only [readOperands_cons_of_none hr, OperandClass.firstOutside_cons_of_not_word hw]
        refine ⟨fun h => ⟨0, c, t, ⟨rfl, rfl, rfl⟩, (Except.error.inj h).symm⟩, ?_⟩
        intro h
        obtain ⟨i, c', t', ⟨rfl, rfl, rfl⟩, rfl⟩ := h
        rfl
      | some a =>
        have hw : c.Word t := OperandClass.word_iff.mpr ⟨a, OperandClass.read?_eq_some_iff.mp hr⟩
        have hmap : readOperands line opcode n (c :: cs) (t :: ts) = .error f ↔
            readOperands line opcode (n + 1) cs ts = .error f := by
          rw [readOperands_cons_of_some hr]
          cases readOperands line opcode (n + 1) cs ts with
          | ok as => exact ⟨fun h => (by cases h), fun h => (by cases h)⟩
          | error g => exact Iff.rfl
        simp only [hmap, ih, OperandClass.firstOutside_cons_of_word hw]
        refine ⟨?_, ?_⟩
        · intro h
          obtain ⟨i, c', t', hi, rfl⟩ := h
          exact ⟨i + 1, c', t', ⟨i, rfl, hi⟩, by rw [Nat.add_right_comm, Nat.add_assoc]⟩
        · intro h
          obtain ⟨_, c', t', ⟨i, rfl, hi⟩, rfl⟩ := h
          exact ⟨i, c', t', hi, by rw [Nat.add_right_comm, Nat.add_assoc]⟩

end

/-! ## statements -/

theorem check_of_entry {s : Statement} {e : Entry} (h : Table.lookup? s.opcode = some e)
    (hn : s.operands.length = e.arity) :
    s.check = (readOperands s.line e.opcode 1 e.operands s.operands).map (e.opcode, ·) := by
  rw [check, h]
  simp only [hn, ne_eq, not_true_eq_false, if_false]
  cases readOperands s.line e.opcode 1 e.operands s.operands <;> rfl

theorem check_eq_ok_iff {s : Statement} {op : Text} {as : List Argument} :
    s.check = .ok (op, as) ↔ ∃ e ∈ Table.entries, e.opcode.sameUpToCase s.opcode = true ∧
      e.opcode = op ∧ List.Forall₂ OperandClass.Admits e.operands as ∧
      as.map Argument.spelling = s.operands := by
  refine ⟨fun h => ?_, ?_⟩
  · cases hl : Table.lookup? s.opcode with
    | none =>
      rw [check_of_unknown hl] at h
      cases h
    | some e =>
      obtain ⟨he, hs⟩ := Table.lookup?_eq_some_iff.mp hl
      by_cases hn : s.operands.length = e.arity
      · rw [check_of_entry hl hn] at h
        cases hr : readOperands s.line e.opcode 1 e.operands s.operands with
        | error f =>
          rw [hr] at h
          cases h
        | ok bs =>
          rw [hr] at h
          obtain ⟨hop, rfl⟩ := Prod.mk.inj (Except.ok.inj h)
          exact ⟨e, he, hs, hop, (readOperands_eq_ok_iff _ _ hn).mp hr⟩
      · rw [check_of_count hl hn] at h
        cases h
  · intro h
    obtain ⟨e, he, hs, rfl, has, hts⟩ := h
    have hn : s.operands.length = e.arity := by
      rw [← hts, List.length_map, Entry.arity, has.length_eq]
    rw [check_of_entry (Table.lookup?_eq_some_iff.mpr ⟨he, hs⟩) hn,
      (readOperands_eq_ok_iff _ _ hn).mpr ⟨has, hts⟩]
    rfl

/-- what is wrong with a statement, and the number that a process reports for it -/
inductive Wrong (s : Statement) : Fault → Nat → Prop where
  | opcode : (∀ e ∈ Table.entries, e.opcode.sameUpToCase s.opcode = false) →
      Wrong s (.unknownOpcode s.line s.opcode) 22
  | count {e : Entry} : e ∈ Table.entries → e.opcode.sameUpToCase s.opcode = true →
      s.operands.length ≠ e.operands.length →
      Wrong s (.operandCount s.line (upper s.opcode) e.operands.length s.operands.length) 23
  | operand {e : Entry} {i : Nat} {c : OperandClass} {t : Text} : e ∈ Table.entries →
      e.opcode.sameUpToCase s.opcode = true → s.operands.length = e.operands.length →
      OperandClass.FirstOutside e.operands s.operands i c t →
      Wrong s (.operandClass s.line (upper s.opcode) (i + 1) t c.name) 23

theorem Wrong.line? {s : Statement} {f : Fault} {n : Nat} (h : s.Wrong f n) :
    f.line? = some s.line := by
  cases h <;> rfl

theorem Wrong.exitCode {s : Statement} {f : Fault} {n : Nat} (h : s.Wrong f n) :
    f.exitCode = n := by
  cases h <;> rfl

theorem Wrong.check {s : Statement} {f : Fault} {n : Nat} (h : s.Wrong f n) :
    s.check = .error f := by
  cases h with
  | opcode hnone => exact check_of_unknown (Table.lookup?_eq_none_iff.mpr hnone)
  | @count e he hs hn =>
    have hl := Table.lookup?_eq_some_iff.mpr ⟨he, hs⟩
    rw [check_of_count hl hn, Table.opcode_eq_upper hl]
    rfl
  | @operand e i c t he hs hn hf =>
    have hl := Table.lookup?_eq_some_iff.mpr ⟨he, hs⟩
    have hr := (readOperands_eq_error_iff s.line e.opcode (n := 1)).mpr ⟨i, c, t, hf, rfl⟩
    rw [check_of_entry hl hn, hr, Table.opcode_eq_upper hl, Nat.add_comm i 1]
    rfl

/-- **The fault of a statement is what is wrong with it.** -/
theorem check_eq_error_iff {s : Statement} {f : Fault} :
    s.check = .error f ↔ s.Wrong f f.exitCode := by
  refine ⟨fun h => ?_, Wrong.check⟩
  cases hl : Table.lookup? s.opcode with
  | none =>
    rw [check_of_unknown hl] at h
    obtain rfl := Except.error.inj h
    exact .opcode (Table.lookup?_eq_none_iff.mp hl)
  | some e =>
    obtain ⟨he, hs⟩ := Table.lookup?_eq_some_iff.mp hl
    by_cases hn : s.operands.length = e.arity
    · rw [check_of_entry hl hn] at h
      cases hr : readOperands s.line e.opcode 1 e.operands s.operands with
      | ok as =>
        rw [hr] at h
        cases h
      | error g =>
        rw [hr] at h
        obtain rfl : g = f := Except.error.inj h
        obtain ⟨i, c, t, hf, rfl⟩ := (readOperands_eq_error_iff _ _).mp hr
        rw [Table.opcode_eq_upper hl, Nat.add_comm]
        exact .operand he hs hn hf
    · rw [check_of_count hl hn, Table.opcode_eq_upper hl] at h
      obtain rfl := Except.error.inj h
      exact .count he hs hn

/-! ## lines -/

/-- **A line that passes, by all the fields of its code.**  No operand has a separator in it, so
that the limit on the number of pieces does not show. -/
theorem accepted_iff {n : Nat} {t op : Text} {as : List Argument} :
    (∃ s, ofLine? n t = some s ∧ s.check = .ok (op, as)) ↔
      ∃ e ∈ Table.entries, ∃ f, fields (code t) = f :: as.map Argument.spelling ∧
        e.opcode.sameUpToCase f = true ∧ e.opcode = op ∧
        List.Forall₂ OperandClass.Admits e.operands as := by
  have hline : ∀ {e : Entry} {f : Text}, e ∈ Table.entries → e.opcode.sameUpToCase f = true →
      List.Forall₂ OperandClass.Admits e.operands as →
      (ofLine? n t = some ⟨n, f, as.map Argument.spelling⟩ ↔
        fields (code t) = f :: as.map Argument.spelling) := by
    intro e f he hs has
    apply ofLine?_iff_fields
    · have hf : IsWord f := Table.isWord_token (Table.lookup?_eq_some_iff.mpr ⟨he, hs⟩)
      exact List.forall_mem_cons.mpr ⟨hf, OperandClass.isWord_of_forall₂ has⟩
    · rw [List.length_map, ← has.length_eq]
      exact Table.arity_le e he
  refine ⟨?_, ?_⟩
  · intro h
    obtain ⟨s, hs, hc⟩ := h
    obtain ⟨e, he, hsame, hop, has, hts⟩ := check_eq_ok_iff.mp hc
    have hn := ofLine?_line hs
    refine ⟨e, he, s.opcode, (hline he hsame has).mp ?_, hsame, hop, has⟩
    rw [hs, hts, ← hn]
  · intro h
    obtain ⟨e, he, f, hf, hsame, hop, has⟩ := h
    exact ⟨_, (hline he hsame has).mpr hf, check_eq_ok_iff.mpr ⟨e, he, hsame, hop, has, rfl⟩⟩

end Source.Statement

end Ippcode
