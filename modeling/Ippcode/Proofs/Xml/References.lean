import Mathlib.Logic.ExistsUnique
import Ippcode.Proofs.Text.Fields
import Ippcode.Xml

/-!
# Character data

What escaping gives, said of the text alone.

* `references`            the five predefined entity references;
* `IsCharacterData s`     every character of `s` is plain, or a part of a reference in `s`;
* `Guarded s`             every special character of `s` begins a reference; this is the same
                          (`isCharacterData_iff_guarded`), and it is decided from the left, character
                          by character;
* `guarded_iff`           so are exactly the texts that escaping gives;
* `escape_reversible`     escaping goes piece by piece, leaves nothing that is read as a tag, and is
                          undone by reading from the left, on both sides.
-/

namespace Ippcode.Xml

def references : List Text :=
  ["&amp;".toList, "&lt;".toList, "&gt;".toList, "&quot;".toList, "&apos;".toList]

/-- The character at `i` is a part of a reference in `s`. -/
def InReference (s : Text) (i : Nat) : Prop :=
  ∃ j ≤ i, ∃ e ∈ references, e <+: s.drop j ∧ i < j + e.length

def IsCharacterData (s : Text) : Prop :=
  ∀ i, (h : i < s.length) → isSpecial s[i] = false ∨ InReference s i

instance (s : Text) (i : Nat) : Decidable (InReference s i) :=
  inferInstanceAs (Decidable (∃ j ≤ i, ∃ e ∈ references, e <+: s.drop j ∧ i < j + e.length))

instance (s : Text) : Decidable (IsCharacterData s) :=
  inferInstanceAs (Decidable (∀ i, (h : i < s.length) → isSpecial s[i] = false ∨ InReference s i))

/-! ## references -/

section

variable {e f s : Text}

/-- Only the first character of a reference is special. -/
theorem exists_eq_of_mem_references (h : e ∈ references) :
    ∃ w, e = '&' :: w ∧ ∀ c ∈ w, isSpecial c = false := by
  have hall : ∀ e ∈ references, e.head? = some '&' ∧ ∀ c ∈ e.tail, isSpecial c = false := by decide
  obtain ⟨hhead, hplain⟩ := hall e h
  obtain ⟨w, rfl⟩ := List.head?_eq_some_iff.mp hhead
  exact ⟨w, rfl, hplain⟩

theorem escapeChar_mem_references {c : Char} (h : isSpecial c = true) :
    escapeChar c ∈ references := by
  rcases isSpecial_iff.mp h with rfl | rfl | rfl | rfl | rfl
  all_goals decide

theorem exists_escapeChar_of_mem_references (h : e ∈ references) : ∃ c, escapeChar c = e := by
  rw [references] at h
  simp only [List.mem_cons, List.not_mem_nil, or_false] at h
  rcases h with rfl | rfl | rfl | rfl | rfl
  · exact ⟨'&', by decide⟩
  · exact ⟨'<', by decide⟩
  · exact ⟨'>', by decide⟩
  · exact ⟨'"', by decide⟩
  · exact ⟨'\'', by decide⟩

/-- No reference begins another one. -/
theorem eq_of_references_prefix (he : e ∈ references) (hf : f ∈ references) (hes : e <+: s)
    (hfs : f <+: s) : e = f := by
  have hall : ∀ e ∈ references, ∀ f ∈ references, e <+: f → e = f := by decide
  rcases List.prefix_or_prefix_of_prefix hes hfs with h | h
  · exact hall e he f hf h
  · exact (hall f hf e he h).symm

end

/-! ## texts in which special characters begin references -/

def Guarded (s : Text) : Prop :=
  ∀ c t, c :: t <:+ s → isSpecial c = true → ∃ e ∈ references, e <+: c :: t

section

variable {c : Char} {e s t w : Text}

theorem guarded_nil : Guarded [] := by
  intro c t h
  exact absurd (List.suffix_nil.mp h) (List.cons_ne_nil c t)

theorem guarded_cons : Guarded (c :: s) ↔
    (isSpecial c = true → ∃ e ∈ references, e <+: c :: s) ∧ Guarded s := by
  refine ⟨fun h => ⟨h c s List.suffix_rfl, ?_⟩, fun ⟨hc, hs⟩ => ?_⟩
  · intro d t ht
    exact h d t (List.suffix_cons_iff.mpr (.inr ht))
  · intro d t ht
    rcases List.suffix_cons_iff.mp ht with heq | ht
    · obtain ⟨rfl, rfl⟩ := List.cons.inj heq
      exact hc
    · exact hs d t ht

theorem guarded_plain_append (h : ∀ d ∈ w, isSpecial d = false) :
    Guarded (w ++ s) ↔ Guarded s := by
  induction w with
  | nil => exact Iff.rfl
  | cons d w ih =>
    rw [List.forall_mem_cons] at h
    rw [List.cons_append, guarded_cons, ih h.2, h.1]
    exact and_iff_right fun hd => absurd hd Bool.false_ne_true

theorem guarded_reference_append (h : e ∈ references) : Guarded (e ++ s) ↔ Guarded s := by
  obtain ⟨w, rfl, hw⟩ := exists_eq_of_mem_references h
  rw [List.cons_append, guarded_cons, guarded_plain_append hw]
  exact and_iff_right fun _ => ⟨_, h, List.prefix_append _ s⟩

theorem guarded_escape (t : Text) : Guarded (escape t) := by
  induction t with
  | nil => exact guarded_nil
  | cons c t ih =>
    rw [escape_cons]
    by_cases hc : isSpecial c = true
    · exact (guarded_reference_append (escapeChar_mem_references hc)).mpr ih
    · rw [Bool.not_eq_true] at hc
      rw [escapeChar_of_not_special hc]
      exact (guarded_plain_append (by simpa using hc)).mpr ih

/-- A text in which special characters begin references is put together from those and from plain
characters. -/
theorem Guarded.exists_escape (h : Guarded s) : ∃ t, escape t = s := by
  induction hn : s.length using Nat.strongRecOn generalizing s with
  | _ n ih =>
    cases s with
    | nil => exact ⟨[], rfl⟩
    | cons c s =>
      obtain ⟨hc, hs⟩ := guarded_cons.mp h
      rw [List.length_cons] at hn
      by_cases hspecial : isSpecial c = true
      · obtain ⟨e, he, rest, hrest⟩ := hc hspecial
        obtain ⟨d, rfl⟩ := exists_escapeChar_of_mem_references he
        have hlt : rest.length < n := by
          obtain ⟨w, hw, -⟩ := exists_eq_of_mem_references he
          have hlength := congrArg List.length hrest
          rw [hw, List.length_append, List.length_cons, List.length_cons] at hlength
          omega
        rw [← hrest, guarded_reference_append he] at h
        obtain ⟨t, ht⟩ := ih _ hlt h rfl
        exact ⟨d :: t, by rw [escape_cons, ht, hrest]⟩
      · obtain ⟨t, ht⟩ := ih _ (by omega) hs rfl
        rw [Bool.not_eq_true] at hspecial
        exact ⟨c :: t, by rw [escape_cons, escapeChar_of_not_special hspecial, ht]; rfl⟩

theorem guarded_iff : Guarded s ↔ ∃ t, escape t = s := by
  refine ⟨Guarded.exists_escape, ?_⟩
  rintro ⟨t, rfl⟩
  exact guarded_escape t

/-- The one special character in such a text is the ampersand. -/
theorem Guarded.eq_ampersand (h : Guarded s) (hspecial : isSpecial c = true) (hc : c ∈ s) :
    c = '&' := by
  obtain ⟨u, t, rfl⟩ := List.append_of_mem hc
  obtain ⟨e, he, hprefix⟩ := h c t (List.suffix_append u _) hspecial
  obtain ⟨w, rfl, -⟩ := exists_eq_of_mem_references he
  exact (List.cons_prefix_cons.mp hprefix).1.symm

theorem notMem_escape (hspecial : isSpecial c = true) (hne : c ≠ '&') (t : Text) :
    c ∉ escape t := fun hc => hne ((guarded_escape t).eq_ampersand hspecial hc)

/-! ## character data -/

/-- A special character in a reference begins it. -/
theorem prefix_drop_of_inReference {i : Nat} (h : i < s.length) (hspecial : isSpecial s[i] = true)
    (hin : InReference s i) : ∃ e ∈ references, e <+: s.drop i := by
  obtain ⟨j, hj, e, he, hprefix, hi⟩ := hin
  obtain ⟨k, rfl⟩ := Nat.exists_eq_add_of_le hj
  obtain ⟨w, rfl, hw⟩ := exists_eq_of_mem_references he
  cases k with
  | zero => exact ⟨_, he, hprefix⟩
  | succ k =>
    have hk : k + 1 < ('&' :: w).length := by omega
    have hget := List.prefix_iff_getElem?.mp hprefix (k + 1) hk
    rw [List.getElem?_drop, List.getElem?_eq_getElem h, Option.some_inj, List.getElem_cons_succ]
      at hget
    rw [hget, hw _ (List.getElem_mem _)] at hspecial
    exact absurd hspecial Bool.false_ne_true

theorem isCharacterData_iff_guarded : IsCharacterData s ↔ Guarded s := by
  refine ⟨fun h => ?_, fun h => ?_⟩
  · rintro c t ⟨u, rfl⟩ hspecial
    have hlt : u.length < (u ++ c :: t).length := by simp
    have hget : (u ++ c :: t)[u.length] = c := by simp
    have hin := (h u.length hlt).resolve_left (by rw [hget, hspecial]; exact Bool.noConfusion)
    obtain ⟨e, he, hprefix⟩ := prefix_drop_of_inReference hlt (by rw [hget, hspecial]) hin
    rw [List.drop_left] at hprefix
    exact ⟨e, he, hprefix⟩
  · intro i hi
    have hdrop := List.drop_eq_getElem_cons hi
    cases hspecial : isSpecial s[i] with
    | false => exact .inl rfl
    | true =>
      obtain ⟨e, he, hprefix⟩ := h _ _ (hdrop ▸ List.drop_suffix i s) hspecial
      obtain ⟨w, rfl, -⟩ := exists_eq_of_mem_references he
      rw [← hdrop] at hprefix
      exact .inr ⟨i, Nat.le_refl i, _, he, hprefix, by rw [List.length_cons]; omega⟩

end

example : IsCharacterData "a&gt;b".toList ∧ ¬ IsCharacterData "a&b;".toList := by decide

/-- **Escaping is undone by reading, and reading by escaping.**  A text is escaped piece by piece,
whether it has special characters or not.  Of those none but the ampersand is left, and each that is
left begins one reference; what has been escaped is read as it was, and what can be read is escaped
as it stands: these are the texts in which every character is plain or a part of a reference. -/
theorem escape_reversible (a b : Text) :
    escape (a ++ b) = escape a ++ escape b ∧
    escape a = a.flatMap escapeChar ∧
    (∀ c ∈ escape a, c ≠ '<' ∧ c ≠ '>' ∧ c ≠ '"' ∧ c ≠ '\'') ∧
    (∀ t, '&' :: t <:+ escape a → ∃! e, e ∈ references ∧ e <+: '&' :: t) ∧
    unescape? (escape a) = some a ∧
    ∀ s, IsCharacterData s ↔ ∃ t, unescape? s = some t ∧ escape t = s := by
  refine ⟨escape_append a b, escape_eq_flatMap a, ?_, ?_, unescape?_escape a, fun s => ?_⟩
  · intro c hc
    refine ⟨?_, ?_, ?_, ?_⟩
    all_goals
      rintro rfl
      exact notMem_escape (by decide) (by decide) a hc
  · intro t ht
    obtain ⟨e, he, hprefix⟩ := guarded_escape a '&' t ht (by decide)
    exact ⟨e, ⟨he, hprefix⟩, fun f hf => eq_of_references_prefix hf.1 he hf.2 hprefix⟩
  · rw [isCharacterData_iff_guarded, guarded_iff]
    refine exists_congr fun t => ?_
    rw [unescape?_eq_some_iff]
    exact ⟨fun h => ⟨h.symm, h⟩, fun h => h.2⟩

theorem escape_reversible_reference :
    '&' :: "amp;lt;".toList <:+ escape "&lt;".toList ∧ IsCharacterData "a&lt;&amp;amp;".toList ∧
    (∃! e, e ∈ references ∧ e <+: '&' :: "amp;lt;".toList) ∧
    ∃ t, unescape? "a&lt;&amp;amp;".toList = some t ∧ escape t = "a&lt;&amp;amp;".toList := by
  have h := escape_reversible "&lt;".toList []
  have hdata : IsCharacterData "a&lt;&amp;amp;".toList := by decide
  exact ⟨by decide, hdata, h.2.2.2.1 _ (by decide), (h.2.2.2.2.2 _).mp hdata⟩

end Ippcode.Xml
