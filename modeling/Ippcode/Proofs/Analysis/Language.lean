import Ippcode.Proofs.Analysis.Run

/-!
# The language of accepted sources, and the fault of a rejected one

`Language bs` says which sources there are, over their physical lines: all lines are texts; the
first one with code is the header; every line with code after it is an instruction, an opcode
followed by as many words as it has classes, each a word of its class.  The words are all the
fields of the code, however many there are.

`accepts_iff`: these are the sources that are accepted.

`FaultAt ls k f n`: line `k` of `ls`, counted from 1, has the fault `f` that is reported as `n`.
It is no text, or it is the first line of code and not the header, or it comes after the header
and its statement is wrong.  A line may have a fault whether or not earlier lines have one.

`rejects_iff`: a source is rejected with the fault of the first line that has one, and for want
of a header when it has no line of code.
-/

namespace Ippcode

open Text Utf8 Source

/-! ## accepted sources -/

/-- a line whose fields are an opcode, in any letter case, and one word of each of its classes -/
def IsInstruction (t : Text) : Prop :=
  ∃ e ∈ Table.entries, ∃ f ts, fields (code t) = f :: ts ∧ e.opcode.sameUpToCase f = true ∧
    List.Forall₂ OperandClass.Word e.operands ts

/-- the sources that are programs -/
def Language (bs : Bytes) : Prop :=
  ∃ (before : List Text) (h : Text) (after : List Text),
    AreLines bs ((before ++ h :: after).map encode) ∧ (∀ t ∈ before, code t = []) ∧
      (code h).sameUpToCase ".IPPcode22".toList = true ∧
      ∀ t ∈ after, code t = [] ∨ IsInstruction t

theorem isInstruction_iff {t : Text} : IsInstruction t ↔ ∃ x, Says (encode t) x := by
  refine ⟨?_, ?_⟩
  · intro h
    obtain ⟨e, he, f, ts, hf, hs, hw⟩ := h
    obtain ⟨as, has, rfl⟩ := OperandClass.forall₂_word_iff.mp hw
    exact ⟨(e.opcode, as), t, rfl, e, he, f, hf, hs, rfl, has⟩
  · intro h
    obtain ⟨x, u, hu, e, he, f, hf, hs, -, has⟩ := h
    obtain rfl := encode_injective hu
    exact ⟨e, he, f, _, hf, hs, OperandClass.forall₂_word_iff.mpr ⟨x.2, has, rfl⟩⟩

theorem blank_encode_iff {t : Text} : Blank (encode t) ↔ code t = [] := by
  refine ⟨?_, fun h => ⟨t, rfl, h⟩⟩
  intro h
  obtain ⟨u, hu, hc⟩ := h
  rwa [encode_injective hu]

/-- lines that are texts -/
theorem exists_texts {ls : List Bytes} (h : ∀ l ∈ ls, ∃ t, l = encode t) :
    ∃ ts : List Text, ls = ts.map encode := by
  induction ls with
  | nil => exact ⟨[], rfl⟩
  | cons l ls ih =>
    obtain ⟨t, rfl⟩ := h l (List.mem_cons_self ..)
    obtain ⟨ts, rfl⟩ := ih fun k hk => h k (List.mem_cons_of_mem _ hk)
    exact ⟨t :: ts, rfl⟩

/-- **The accepted sources are those of the language.** -/
theorem accepts_iff (bs : Bytes) : (∃ p, parse bs = .ok p) ↔ Language bs := by
  have hpasses : (∃ p, parse bs = .ok p) ↔ ∃ xs, Passes (breakLines bs) (some xs) := by
    refine ⟨?_, fun ⟨xs, h⟩ => ⟨_, parse_of_passes h⟩⟩
    intro h
    obtain ⟨p, h⟩ := h
    obtain ⟨xs, hp, -⟩ := parse_eq_ok_iff.mp h
    exact ⟨xs, hp⟩
  rw [hpasses, exists_passes_some_iff]
  refine ⟨?_, ?_⟩
  · intro h'
    obtain ⟨before, l, after, hls, hb, hl, ha⟩ := h'
    have hbt : ∀ k ∈ before, ∃ t, k = encode t := by
      intro k hk
      obtain ⟨t, rfl, -⟩ := hb k hk
      exact ⟨t, rfl⟩
    have hat : ∀ k ∈ after, ∃ t, k = encode t := by
      intro k hk
      rcases ha k hk with ⟨t, rfl, -⟩ | ⟨x, t, rfl, -⟩
      · exact ⟨t, rfl⟩
      · exact ⟨t, rfl⟩
    obtain ⟨ts, rfl⟩ := exists_texts hbt
    obtain ⟨us, rfl⟩ := exists_texts hat
    obtain ⟨h, rfl, hh⟩ := hl
    refine ⟨ts, h, us, ?_, ?_, hh, ?_⟩
    · rw [areLines_iff, hls, List.map_append, List.map_cons]
    · intro t ht
      exact blank_encode_iff.mp (hb _ (List.mem_map_of_mem ht))
    · intro t ht
      exact (ha _ (List.mem_map_of_mem ht)).imp blank_encode_iff.mp isInstruction_iff.mpr
  · intro h'
    obtain ⟨before, h, after, hls, hb, hh, ha⟩ := h'
    refine ⟨before.map encode, encode h, after.map encode, ?_, ?_, ⟨h, rfl, hh⟩, ?_⟩
    · rw [← areLines_iff.mp hls, List.map_append, List.map_cons]
    · intro l hl
      obtain ⟨t, ht, rfl⟩ := List.mem_map.mp hl
      exact blank_encode_iff.mpr (hb t ht)
    · intro l hl
      obtain ⟨t, ht, rfl⟩ := List.mem_map.mp hl
      exact (ha t ht).imp blank_encode_iff.mpr isInstruction_iff.mp

/-! ## rejected sources -/

/-- line `k` of `ls` has the fault `f`, and a process reports it as `n` -/
def FaultAt (ls : List Bytes) (k : Nat) (f : Fault) (n : Nat) : Prop :=
  ∃ a l b, ls = a ++ l :: b ∧ k = a.length + 1 ∧ Offends a l f n

/-- no line of `ls` before line `k` has a fault -/
def FirstFault (ls : List Bytes) (k : Nat) (f : Fault) (n : Nat) : Prop :=
  FaultAt ls k f n ∧ ∀ j < k, ∀ g m, ¬ FaultAt ls j g m

theorem FaultAt.unique {ls : List Bytes} {k : Nat} {f g : Fault} {n m : Nat}
    (h : FaultAt ls k f n) (h' : FaultAt ls k g m) : f = g := by
  obtain ⟨a, l, b, rfl, hk, hf⟩ := h
  obtain ⟨a', l', b', hls, hk', hg⟩ := h'
  have hlen : a.length = a'.length := Nat.succ.inj (hk.symm.trans hk')
  obtain ⟨rfl, hrest⟩ := List.append_inj hls hlen
  obtain ⟨rfl, -⟩ := List.cons.inj hrest
  exact hf.unique hg

theorem FirstFault.unique {ls : List Bytes} {k j : Nat} {f g : Fault} {n m : Nat}
    (h : FirstFault ls k f n) (h' : FirstFault ls j g m) : f = g := by
  have hkj : k = j := by
    apply Nat.le_antisymm
    · exact Nat.le_of_not_lt fun hlt => h.2 j hlt g m h'.1
    · exact Nat.le_of_not_lt fun hlt => h'.2 k hlt f n h.1
  subst hkj
  exact h.1.unique h'.1

theorem FaultAt.line? {ls : List Bytes} {k : Nat} {f : Fault} {n : Nat} (h : FaultAt ls k f n) :
    f.line? = some k := by
  obtain ⟨a, l, b, -, rfl, hf⟩ := h
  exact hf.line?

theorem FaultAt.exitCode {ls : List Bytes} {k : Nat} {f : Fault} {n : Nat}
    (h : FaultAt ls k f n) : f.exitCode = n := by
  obtain ⟨a, l, b, -, -, hf⟩ := h
  exact hf.exitCode

theorem not_faultAt_of_passes {ls : List Bytes} {o : Option Said} (h : Passes ls o) (k : Nat)
    (f : Fault) (n : Nat) : ¬ FaultAt ls k f n := by
  intro h'
  obtain ⟨a, l, b, hls, -, hf⟩ := h'
  exact h.not_offends hls hf

/-- The line after lines that pass is the first that can have a fault. -/
theorem firstFault_of_passes {a b : List Bytes} {l : Bytes} {o : Option Said} {f : Fault} {n : Nat}
    (ha : Passes a o) (hf : Offends a l f n) : FirstFault (a ++ l :: b) (a.length + 1) f n := by
  refine ⟨⟨a, l, b, rfl, rfl, hf⟩, ?_⟩
  intro j hj g m h
  obtain ⟨a', l', b', hls, rfl, hg⟩ := h
  have hlen : a'.length < a.length := Nat.lt_of_succ_lt_succ hj
  -- `a'` and its line are within the lines that pass
  have htake : a = a' ++ l' :: b'.take (a.length - a'.length - 1) := by
    have h := congrArg (List.take a.length) hls
    rw [List.take_left, List.take_append, List.take_of_length_le (by omega)] at h
    obtain ⟨d, hd⟩ : ∃ d, a.length - a'.length = d + 1 := ⟨a.length - a'.length - 1, by omega⟩
    rw [hd, List.take_succ_cons] at h
    rw [hd]
    exact h
  exact ha.not_offends htake hg

/-- **A source is rejected for its first fault, or because it has no header.** -/
theorem rejects_iff (bs : Bytes) (f : Fault) : parse bs = .error f ↔
    ∃ ls, AreLines bs ls ∧
      ((∃ k n, FirstFault ls k f n ∧ f.line? = some k ∧ f.exitCode = n) ∨
        ((∀ k g n, ¬ FaultAt ls k g n) ∧ (∀ l ∈ ls, Blank l) ∧
          f = .missingHeader ".IPPcode22".toList ∧ f.exitCode = 21)) := by
  refine ⟨fun h => ⟨breakLines bs, areLines_breakLines bs, ?_⟩, ?_⟩
  · rcases parse_eq_error_iff.mp h with ⟨hp, rfl⟩ | ⟨a, l, b, o, n, hls, ha, hf⟩
    · exact .inr ⟨not_faultAt_of_passes hp, passes_none_iff.mp hp, rfl, rfl⟩
    · have hfirst : FirstFault (breakLines bs) (a.length + 1) f n := by
        rw [hls]
        exact firstFault_of_passes ha hf
      exact .inl ⟨_, n, hfirst, hfirst.1.line?, hfirst.1.exitCode⟩
  · intro h
    obtain ⟨ls, hls, hcase⟩ := h
    obtain rfl := areLines_iff.mp hls
    rcases hcase with ⟨k, n, hfirst, -, -⟩ | ⟨-, hb, rfl, -⟩
    · rcases passes_or_offends (breakLines bs) with ⟨o, hp⟩ | ⟨a, l, b, o, g, m, heq, ha, hg⟩
      · exact absurd hfirst.1 (not_faultAt_of_passes hp k f n)
      · have hfirst' : FirstFault (breakLines bs) (a.length + 1) g m := by
          rw [heq]
          exact firstFault_of_passes ha hg
        rw [hfirst.unique hfirst']
        exact parse_of_offends heq ha hg
    · exact parse_of_no_header (passes_none_iff.mpr hb)

end Ippcode
