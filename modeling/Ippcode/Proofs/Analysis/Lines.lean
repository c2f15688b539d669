import Ippcode.Proofs.Instruction.Check
import Mathlib.Data.List.Induction

/-!
# Lines that pass and lines that offend

The lines of a source, seen one by one and without a machine.

* `Blank`, `HasCode`, `IsHeader`, `Says`   what one line may be;
* `Passes ls o`          lines that pass: `o` is what they say, nothing as long as there was no
                         header, and after it the opcodes with their arguments;
* `Offends before raw f n`   the line `raw`, coming after `before`, has the fault `f`, which a
                         process reports as `n`.

A source passes as a whole or has a first line that does not (`passes_or_offends`), and never
both (`Passes.not_offends`).
-/

namespace Ippcode.Source

open Text Utf8

/-- opcodes with their arguments -/
abbrev Said : Type := List (Text × List Argument)

/-! ## one line -/

/-- a text without code -/
def Blank (raw : Bytes) : Prop := ∃ t, raw = encode t ∧ code t = []

/-- a text with code -/
def HasCode (raw : Bytes) : Prop := ∃ t, raw = encode t ∧ code t ≠ []

/-- a text whose code is the header -/
def IsHeader (raw : Bytes) : Prop := ∃ t, raw = encode t ∧ (code t).sameUpToCase header = true

/-- a text whose code is an instruction, by all its fields -/
def Says (raw : Bytes) (x : Text × List Argument) : Prop :=
  ∃ t, raw = encode t ∧ ∃ e ∈ Table.entries, ∃ f,
    fields (code t) = f :: x.2.map Argument.spelling ∧ e.opcode.sameUpToCase f = true ∧
      e.opcode = x.1 ∧ List.Forall₂ OperandClass.Admits e.operands x.2

theorem Blank.not_hasCode {raw : Bytes} (h : Blank raw) : ¬ HasCode raw := by
  intro h'
  obtain ⟨t, rfl, ht⟩ := h'
  obtain ⟨u, hu, hc⟩ := h
  rw [encode_injective hu] at ht
  exact ht hc

theorem code_ne_nil_of_header {t : Text} (h : (code t).sameUpToCase header = true) :
    code t ≠ [] := by
  intro hn
  rw [hn] at h
  exact absurd h (by decide)

theorem IsHeader.hasCode {raw : Bytes} (h : IsHeader raw) : HasCode raw := by
  obtain ⟨t, rfl, ht⟩ := h
  exact ⟨t, rfl, code_ne_nil_of_header ht⟩

/-! ## lines that pass -/

/-- what lines that pass say; nothing as long as there was no header -/
inductive Passes : List Bytes → Option Said → Prop where
  | start : Passes [] none
  | blank {ls : List Bytes} {o : Option Said} {l : Bytes} :
      Passes ls o → Blank l → Passes (ls ++ [l]) o
  | header {ls : List Bytes} {l : Bytes} :
      Passes ls none → IsHeader l → Passes (ls ++ [l]) (some [])
  | statement {ls : List Bytes} {xs : Said} {l : Bytes} {x : Text × List Argument} :
      Passes ls (some xs) → Says l x → Passes (ls ++ [l]) (some (xs ++ [x]))

theorem passes_none_iff {ls : List Bytes} : Passes ls none ↔ ∀ l ∈ ls, Blank l := by
  refine ⟨fun h => ?_, fun h => ?_⟩
  · generalize ho : (none : Option Said) = o at h
    induction h with
    | start => simp
    | blank _ hl ih => exact List.forall_mem_append.mpr ⟨ih ho, List.forall_mem_singleton.mpr hl⟩
    | header => cases ho
    | statement => cases ho
  · induction ls using List.reverseRecOn with
    | nil => exact .start
    | append_singleton ls l ih =>
      rw [List.forall_mem_append] at h
      exact .blank (ih h.1) (h.2 l (List.mem_singleton.mpr rfl))

/-- the lines up to the header, and after them blank lines and instructions -/
theorem exists_passes_some_iff {ls : List Bytes} : (∃ xs, Passes ls (some xs)) ↔
    ∃ before h after, ls = before ++ h :: after ∧ (∀ l ∈ before, Blank l) ∧ IsHeader h ∧
      ∀ l ∈ after, Blank l ∨ ∃ x, Says l x := by
  refine ⟨?_, ?_⟩
  · intro h
    obtain ⟨xs, h⟩ := h
    generalize ho : some xs = o at h
    induction h generalizing xs with
    | start => cases ho
    | @blank ls _ l _ hl ih =>
      obtain ⟨before, h, after, rfl, hb, hh, ha⟩ := ih xs ho
      refine ⟨before, h, after ++ [l], by simp, hb, hh, ?_⟩
      exact List.forall_mem_append.mpr ⟨ha, List.forall_mem_singleton.mpr (.inl hl)⟩
    | @header ls l hls hl =>
      exact ⟨ls, l, [], rfl, passes_none_iff.mp hls, hl, by simp⟩
    | @statement ls ys l x _ hl ih =>
      obtain ⟨before, h, after, rfl, hb, hh, ha⟩ := ih ys rfl
      refine ⟨before, h, after ++ [l], by simp, hb, hh, ?_⟩
      exact List.forall_mem_append.mpr ⟨ha, List.forall_mem_singleton.mpr (.inr ⟨x, hl⟩)⟩
  · intro h'
    obtain ⟨before, h, after, rfl, hb, hh, ha⟩ := h'
    induction after using List.reverseRecOn with
    | nil => exact ⟨[], .header (passes_none_iff.mpr hb) hh⟩
    | append_singleton after l ih =>
      rw [List.forall_mem_append] at ha
      obtain ⟨xs, hxs⟩ := ih ha.1
      rw [← List.cons_append, ← List.append_assoc]
      rcases ha.2 l (List.mem_singleton.mpr rfl) with hl | ⟨x, hl⟩
      · exact ⟨xs, hxs.blank hl⟩
      · exact ⟨xs ++ [x], hxs.statement hl⟩

/-! ## lines that offend -/

/-- the first line of code was the header -/
def AfterHeader (before : List Bytes) : Prop :=
  ∃ a h b, before = a ++ h :: b ∧ (∀ l ∈ a, ¬ HasCode l) ∧ IsHeader h

/-- the fault of a line that comes after other lines, and the number that a process reports -/
inductive Offends (before : List Bytes) (raw : Bytes) : Fault → Nat → Prop where
  | unreadable : (∀ t, raw ≠ encode t) →
      Offends before raw (.unreadable (before.length + 1) notUtf8) 11
  | wrongHeader {t : Text} : raw = encode t → code t ≠ [] → (∀ l ∈ before, ¬ HasCode l) →
      (code t).sameUpToCase header = false →
      Offends before raw (.wrongHeader (before.length + 1) header (code t)) 21
  | statement {t : Text} {s : Statement} {f : Fault} {n : Nat} : raw = encode t →
      AfterHeader before → Statement.ofLine? (before.length + 1) t = some s → s.Wrong f n →
      Offends before raw f n

theorem AfterHeader.exists_hasCode {before : List Bytes} (h : AfterHeader before) :
    ∃ l ∈ before, HasCode l := by
  obtain ⟨a, l, b, rfl, -, hl⟩ := h
  exact ⟨l, by simp, hl.hasCode⟩

theorem Offends.line? {before : List Bytes} {raw : Bytes} {f : Fault} {n : Nat}
    (h : Offends before raw f n) : f.line? = some (before.length + 1) := by
  cases h with
  | unreadable => rfl
  | wrongHeader => rfl
  | statement _ _ hs hw => rw [hw.line?, Statement.ofLine?_line hs]

theorem Offends.exitCode {before : List Bytes} {raw : Bytes} {f : Fault} {n : Nat}
    (h : Offends before raw f n) : f.exitCode = n := by
  cases h with
  | unreadable => rfl
  | wrongHeader => rfl
  | statement _ _ _ hw => exact hw.exitCode

/-- a line has one fault at most -/
theorem Offends.unique {before : List Bytes} {raw : Bytes} {f g : Fault} {n m : Nat}
    (h : Offends before raw f n) (h' : Offends before raw g m) : f = g := by
  cases h with
  | unreadable hu =>
    cases h' with
    | unreadable => rfl
    | wrongHeader ht => exact absurd ht (hu _)
    | statement ht => exact absurd ht (hu _)
  | wrongHeader ht hc hb hn =>
    cases h' with
    | unreadable hu => exact absurd ht (hu _)
    | wrongHeader ht' =>
      obtain rfl := encode_injective (ht.symm.trans ht')
      rfl
    | statement _ ha =>
      obtain ⟨l, hl, hcode⟩ := ha.exists_hasCode
      exact absurd hcode (hb l hl)
  | statement ht ha hs hw =>
    cases h' with
    | unreadable hu => exact absurd ht (hu _)
    | wrongHeader _ _ hb =>
      obtain ⟨l, hl, hcode⟩ := ha.exists_hasCode
      exact absurd hcode (hb l hl)
    | statement ht' _ hs' hw' =>
      obtain rfl := encode_injective (ht.symm.trans ht')
      obtain rfl := Option.some.inj (hs.symm.trans hs')
      exact Except.error.inj (hw.check.symm.trans hw'.check)

/-! ## either, and not both -/

theorem Passes.afterHeader {ls : List Bytes} {xs : Said} (h : Passes ls (some xs)) :
    AfterHeader ls := by
  obtain ⟨before, l, after, rfl, hb, hl, -⟩ := exists_passes_some_iff.mp ⟨xs, h⟩
  exact ⟨before, l, after, rfl, fun k hk => (hb k hk).not_hasCode, hl⟩

theorem Passes.no_hasCode {ls : List Bytes} (h : Passes ls none) : ∀ l ∈ ls, ¬ HasCode l :=
  fun l hl => (passes_none_iff.mp h l hl).not_hasCode

theorem Blank.not_offends {before : List Bytes} {raw : Bytes} {f : Fault} {n : Nat}
    (h : Blank raw) : ¬ Offends before raw f n := by
  obtain ⟨t, rfl, ht⟩ := h
  intro hf
  cases hf with
  | unreadable hu => exact hu t rfl
  | wrongHeader hu hc =>
    rw [← encode_injective hu] at hc
    exact hc ht
  | statement hu _ hs =>
    rw [← encode_injective hu, Statement.ofLine?_of_code_eq_nil ht] at hs
    cases hs

theorem IsHeader.not_offends {before : List Bytes} {raw : Bytes} {f : Fault} {n : Nat}
    (h : IsHeader raw) (hb : ∀ l ∈ before, ¬ HasCode l) : ¬ Offends before raw f n := by
  obtain ⟨t, rfl, ht⟩ := h
  intro hf
  cases hf with
  | unreadable hu => exact hu t rfl
  | wrongHeader hu _ _ hn =>
    rw [← encode_injective hu, ht] at hn
    exact absurd hn.symm Bool.false_ne_true
  | statement _ ha =>
    obtain ⟨l, hl, hcode⟩ := ha.exists_hasCode
    exact hb l hl hcode

theorem Says.not_offends {before : List Bytes} {raw : Bytes} {x : Text × List Argument}
    {f : Fault} {n : Nat} (h : Says raw x) (ha : AfterHeader before) :
    ¬ Offends before raw f n := by
  obtain ⟨t, rfl, ht⟩ := h
  intro hf
  cases hf with
  | unreadable hu => exact hu t rfl
  | wrongHeader _ _ hb =>
    obtain ⟨l, hl, hcode⟩ := ha.exists_hasCode
    exact hb l hl hcode
  | statement hu _ hs hw =>
    obtain ⟨s, hs', hok⟩ := (Statement.accepted_iff (n := before.length + 1)).mpr ht
    obtain rfl := encode_injective hu
    obtain rfl := Option.some.inj (hs.symm.trans hs')
    have hboth := hw.check.symm.trans hok
    cases hboth

/-- A line of a list is its last one or comes earlier. -/
theorem last_or_earlier {ls a b : List Bytes} {l raw : Bytes} (h : ls ++ [l] = a ++ raw :: b) :
    (ls = a ∧ l = raw) ∨ ∃ c, ls = a ++ raw :: c := by
  rcases List.eq_nil_or_concat b with rfl | ⟨c, d, rfl⟩
  · exact .inl (by simpa using h)
  · right
    rw [List.concat_eq_append, ← List.cons_append, ← List.append_assoc] at h
    exact ⟨c, (List.append_inj' h rfl).1⟩

/-- Among lines that pass, none offends. -/
theorem Passes.not_offends {ls a b : List Bytes} {o : Option Said} {raw : Bytes} {f : Fault}
    {n : Nat} (h : Passes ls o) (hls : ls = a ++ raw :: b) : ¬ Offends a raw f n := by
  induction h generalizing b with
  | start => simp at hls
  | blank _ hl ih =>
    rcases last_or_earlier hls with ⟨rfl, rfl⟩ | ⟨c, hc⟩
    · exact hl.not_offends
    · exact ih hc
  | header hp hl ih =>
    rcases last_or_earlier hls with ⟨rfl, rfl⟩ | ⟨c, hc⟩
    · exact hl.not_offends hp.no_hasCode
    · exact ih hc
  | statement hp hl ih =>
    rcases last_or_earlier hls with ⟨rfl, rfl⟩ | ⟨c, hc⟩
    · exact hl.not_offends hp.afterHeader
    · exact ih hc

/-- One more line passes or offends. -/
theorem Passes.next {ls : List Bytes} {o : Option Said} (h : Passes ls o) (raw : Bytes) :
    (∃ o', Passes (ls ++ [raw]) o') ∨ ∃ f n, Offends ls raw f n := by
  by_cases hu : ∀ t, raw ≠ encode t
  · exact .inr ⟨_, _, .unreadable hu⟩
  obtain ⟨t, ht⟩ := Classical.not_forall.mp hu
  obtain rfl : raw = encode t := Classical.not_not.mp ht
  by_cases hc : code t = []
  · exact .inl ⟨o, h.blank ⟨t, rfl, hc⟩⟩
  cases o with
  | none =>
    cases hh : (code t).sameUpToCase Source.header with
    | true => exact .inl ⟨some [], h.header ⟨t, rfl, hh⟩⟩
    | false => exact .inr ⟨_, _, .wrongHeader rfl hc h.no_hasCode hh⟩
  | some xs =>
    obtain ⟨s, hs⟩ := Statement.exists_ofLine? (ls.length + 1) hc
    cases hk : s.check with
    | ok x =>
      have hsays : Says (encode t) x := ⟨t, rfl, Statement.accepted_iff.mp ⟨s, hs, hk⟩⟩
      exact .inl ⟨some (xs ++ [x]), h.statement hsays⟩
    | error f =>
      have hw := Statement.check_eq_error_iff.mp hk
      exact .inr ⟨f, _, .statement rfl h.afterHeader hs hw⟩

/-- All lines pass, or there is a first one that offends. -/
theorem passes_or_offends (ls : List Bytes) : (∃ o, Passes ls o) ∨
    ∃ a raw b o f n, ls = a ++ raw :: b ∧ Passes a o ∧ Offends a raw f n := by
  induction ls using List.reverseRecOn with
  | nil => exact .inl ⟨none, .start⟩
  | append_singleton ls l ih =>
    rcases ih with ⟨o, h⟩ | ⟨a, raw, b, o, f, n, rfl, ha, hf⟩
    · rcases h.next l with hp | ⟨f, n, hf⟩
      · exact .inl hp
      · exact .inr ⟨ls, l, [], o, f, n, rfl, h, hf⟩
    · exact .inr ⟨a, raw, b ++ [l], o, f, n, by simp, ha, hf⟩

end Ippcode.Source
