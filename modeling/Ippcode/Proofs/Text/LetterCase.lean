import Ippcode.Proofs.Text.Fields

/-!
# What letter case leaves alone

Only letters have a case, so that a text in another letter case has the same blanks and marks in the
same places.

* `toNat_toLower`, `toNat_toUpper`   the two maps by numbers;
* `upper_eq_of_sameUpToCase`   texts that differ in letter case alone have the same capitals;
* `mem_iff_of_sameUpToCase`    a character that is no letter is in both or in none;
* `isTrimmed_iff_of_sameUpToCase`, `separatorFree_iff_of_sameUpToCase`   and so are separators.
-/

namespace Ippcode.Text

/-! ## by numbers -/

theorem toNat_toLower (c : Char) : c.toLower.toNat
    = if 65 ≤ c.toNat ∧ c.toNat ≤ 90 then c.toNat + 32 else c.toNat := by
  have hcond : ('A'.val ≤ c.val ∧ c.val ≤ 'Z'.val) ↔ 65 ≤ c.toNat ∧ c.toNat ≤ 90 := Iff.rfl
  unfold Char.toLower
  simp only [ge_iff_le]
  split
  · next h =>
    rw [if_pos (hcond.mp h)]
    have hle := (hcond.mp h).2
    show (c.val + ('a'.val - 'A'.val)).toNat = c.toNat + 32
    rw [UInt32.toNat_add]
    show (c.toNat + 32) % 2 ^ 32 = c.toNat + 32
    omega
  · next h => rw [if_neg (mt hcond.mpr h)]

theorem toNat_toUpper (c : Char) : c.toUpper.toNat
    = if 97 ≤ c.toNat ∧ c.toNat ≤ 122 then c.toNat - 32 else c.toNat := by
  have hcond : ('a'.val ≤ c.val ∧ c.val ≤ 'z'.val) ↔ 97 ≤ c.toNat ∧ c.toNat ≤ 122 := Iff.rfl
  unfold Char.toUpper
  split
  · next h =>
    rw [if_pos (hcond.mp h)]
    obtain ⟨hlo, hhi⟩ := hcond.mp h
    show (c.val + ('A'.val - 'a'.val)).toNat = c.toNat - 32
    rw [UInt32.toNat_add]
    show (c.toNat + 4294967264) % 2 ^ 32 = c.toNat - 32
    omega
  · next h => rw [if_neg (mt hcond.mpr h)]

theorem toUpper_eq_of_toLower_eq {c d : Char} (h : c.toLower = d.toLower) :
    c.toUpper = d.toUpper := by
  have hn : c.toLower.toNat = d.toLower.toNat := by rw [h]
  rw [toNat_toLower, toNat_toLower] at hn
  apply Char.ext
  apply UInt32.toNat_inj.mp
  show c.toUpper.toNat = d.toUpper.toNat
  rw [toNat_toUpper, toNat_toUpper]
  split at hn <;> split at hn <;> split <;> split <;> omega

/-- Texts that differ in letter case alone have the same capitals. -/
theorem upper_eq_of_sameUpToCase {a b : Text} (h : sameUpToCase a b = true) :
    upper a = upper b := by
  rw [sameUpToCase_iff] at h
  induction a generalizing b with
  | nil =>
    cases b with
    | nil => rfl
    | cons d b => simp [lower] at h
  | cons c a ih =>
    cases b with
    | nil => simp [lower] at h
    | cons d b =>
      rw [lower_cons, lower_cons, List.cons.injEq] at h
      rw [upper_cons, upper_cons, toUpper_eq_of_toLower_eq h.1, ih h.2]

theorem sameUpToCase_append {a a' b b' : Text} (h : sameUpToCase a a' = true)
    (h' : sameUpToCase b b' = true) : sameUpToCase (a ++ b) (a' ++ b') = true := by
  rw [sameUpToCase_iff] at *
  rw [lower_append, lower_append, h, h']

theorem eq_nil_iff_of_sameUpToCase {a b : Text} (h : sameUpToCase a b = true) :
    a = [] ↔ b = [] := by
  rw [sameUpToCase_iff] at h
  rw [← List.length_eq_zero_iff, ← List.length_eq_zero_iff, ← length_lower a, h, length_lower]

/-! ## characters that are no letters -/

/-- a character that no other one has for its small form -/
def IsCaseless (d : Char) : Prop := d.toLower = d ∧ ¬ (97 ≤ d.toNat ∧ d.toNat ≤ 122)

instance (d : Char) : Decidable (IsCaseless d) :=
  inferInstanceAs (Decidable (d.toLower = d ∧ ¬ (97 ≤ d.toNat ∧ d.toNat ≤ 122)))

theorem IsCaseless.toLower_eq_iff {c d : Char} (h : IsCaseless d) : c.toLower = d ↔ c = d := by
  refine ⟨fun hc => ?_, ?_⟩
  · have hn : c.toLower.toNat = d.toNat := by rw [hc]
    have hd := h.2
    rw [toNat_toLower] at hn
    split at hn
    · omega
    · exact Char.toNat_inj.mp hn
  · rintro rfl
    exact h.1

theorem mem_lower_iff {d : Char} (h : IsCaseless d) {t : Text} : d ∈ lower t ↔ d ∈ t := by
  simp only [lower, List.mem_map, h.toLower_eq_iff, exists_eq_right]

theorem mem_iff_of_sameUpToCase {a b : Text} (h : sameUpToCase a b = true) {d : Char}
    (hd : IsCaseless d) : d ∈ a ↔ d ∈ b := by
  rw [sameUpToCase_iff] at h
  rw [← mem_lower_iff hd, h, mem_lower_iff hd]

theorem isCaseless_of_isSeparator {d : Char} (h : isSeparator d = true) : IsCaseless d := by
  have hall : ∀ c ∈ [' ', '\t', '\n', '\x0b', '\x0c', '\r'], IsCaseless c := by decide
  exact hall d (isSeparator_iff.mp h)

theorem isSeparator_toLower (c : Char) : isSeparator c.toLower = isSeparator c := by
  rw [Bool.eq_iff_iff]
  refine ⟨fun h => ?_, fun h => ?_⟩
  · rwa [← (isCaseless_of_isSeparator h).toLower_eq_iff.mp rfl] at h
  · rwa [(isCaseless_of_isSeparator h).1]

theorem isTrimmed_lower_iff {t : Text} :
    IsTrimmed isSeparator (lower t) ↔ IsTrimmed isSeparator t := by
  simp only [IsTrimmed, lower, List.head?_map, List.getLast?_map, Option.map_eq_some_iff,
    forall_exists_index, and_imp, forall_apply_eq_imp_iff₂, isSeparator_toLower]

theorem isTrimmed_iff_of_sameUpToCase {a b : Text} (h : sameUpToCase a b = true) :
    IsTrimmed isSeparator a ↔ IsTrimmed isSeparator b := by
  rw [sameUpToCase_iff] at h
  rw [← isTrimmed_lower_iff, h, isTrimmed_lower_iff]

theorem separatorFree_iff_of_sameUpToCase {a b : Text} (h : sameUpToCase a b = true) :
    (∀ c ∈ a, isSeparator c = false) ↔ ∀ c ∈ b, isSeparator c = false := by
  have hlower : ∀ t : Text, (∀ c ∈ lower t, isSeparator c = false) ↔
      ∀ c ∈ t, isSeparator c = false := by
    intro t
    simp only [lower, List.forall_mem_map, isSeparator_toLower]
  rw [sameUpToCase_iff] at h
  rw [← hlower, h, hlower]

end Ippcode.Text
