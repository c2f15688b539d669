import Ippcode.Proofs.Utf8.Exact

/-!
# Where texts may be cut, and where bytes cease to be a text

The byte of an ASCII character is never a part of another one.  So a byte string can be read on
each side of such a byte apart, and what is no text does not become one when text that begins with
an ASCII character is put behind it.

* `exists_cut`               where a text has an ASCII byte, it has that character;
* `decode?_append_encode`    a text behind that begins with an ASCII character.

`IllFormedAfter bs u`: the text `u` can be read from `bs`, and no character can be read after it, so
that the first ill-formed sequence of `bs` starts there.  Every byte string that is no text has such
a place (`exists_illFormedAfter`), and no more than one (`IllFormedAfter.unique`); a text has none
(`IllFormedAfter.not_text`).
-/

namespace Ippcode.Utf8

/-! ## texts cut at an ASCII character -/

/-- one of the characters with a form of one byte -/
def IsAscii (c : Char) : Prop := c.toNat < 0x80

instance (c : Char) : Decidable (IsAscii c) := inferInstanceAs (Decidable (c.toNat < 0x80))

theorem encodeChar_of_isAscii {c : Char} (h : IsAscii c) :
    ∃ x : UInt8, x.toNat = c.toNat ∧ String.utf8EncodeChar c = [x] := by
  have hlt : c.toNat < 0x80 := h
  have hx := toNat_ofNat_of_lt (n := c.toNat) (by omega)
  have hform := Form.one (a := UInt8.ofNat c.toNat) (by omega)
  rw [hx, Char.ofNat_toNat] at hform
  exact ⟨_, hx, encodeChar_of_form hform⟩

/-- **A text with an ASCII byte is cut there into two texts.** -/
theorem exists_cut {a b : Bytes} {x : UInt8} {t : Text} (hx : x.toNat < 0x80)
    (h : a ++ x :: b = encode t) :
    ∃ u v, t = u ++ Char.ofNat x.toNat :: v ∧ a = encode u ∧ b = encode v := by
  induction t generalizing a with
  | nil =>
    rw [encode_nil] at h
    simp at h
  | cons c t ih =>
    obtain ⟨bs, hform⟩ := exists_form c
    rw [encode_cons, encodeChar_of_form hform] at h
    rcases List.append_eq_append_iff.mp h with ⟨e, hbs, hrest⟩ | ⟨e, ha, hrest⟩
    · cases e with
      | nil =>
        -- the byte comes right after the first character
        rw [List.append_nil] at hbs
        obtain ⟨u, v, rfl, hu, hv⟩ := ih (a := []) hrest
        refine ⟨c :: u, v, rfl, ?_, hv⟩
        rw [encode_cons, ← hu, encodeChar_of_form hform, hbs, List.append_nil]
      | cons y e =>
        -- the byte is within the first character, so it is all of it
        obtain ⟨rfl, hb⟩ := List.cons.inj hrest
        obtain ⟨hone, rfl⟩ := hform.eq_of_mem (hbs ▸ by simp) hx
        rw [hone, ← List.nil_append [x]] at hbs
        have hlen := congrArg List.length hbs
        simp only [List.length_append, List.length_cons, List.length_nil] at hlen
        obtain rfl := List.length_eq_zero_iff.mp (show a.length = 0 by omega)
        obtain rfl := List.length_eq_zero_iff.mp (show e.length = 0 by omega)
        exact ⟨[], t, rfl, rfl, hb⟩
    · obtain ⟨u, v, rfl, rfl, hv⟩ := ih hrest.symm
      refine ⟨c :: u, v, rfl, ?_, hv⟩
      rw [encode_cons, encodeChar_of_form hform, ha]

theorem append_encodeChar_eq_iff {a b : Bytes} {c : Char} {t : Text} (hc : IsAscii c) :
    a ++ String.utf8EncodeChar c ++ b = encode t ↔
      ∃ u v, t = u ++ c :: v ∧ a = encode u ∧ b = encode v := by
  obtain ⟨x, hx, hbyte⟩ := encodeChar_of_isAscii hc
  refine ⟨fun h => ?_, ?_⟩
  · rw [hbyte, List.append_assoc, List.singleton_append] at h
    obtain ⟨u, v, rfl, ha, hb⟩ := exists_cut (by rw [hx]; exact hc) h
    exact ⟨u, v, by rw [hx, Char.ofNat_toNat], ha, hb⟩
  · intro h
    obtain ⟨u, v, rfl, rfl, rfl⟩ := h
    rw [encode_append, encode_cons, List.append_assoc]

theorem decode?_append_encode (a : Bytes) {s : Text} (hs : ∀ c, s.head? = some c → IsAscii c) :
    decode? (a ++ encode s) = (decode? a).map fun t => t ++ s := by
  cases s with
  | nil =>
    simp only [encode_nil, List.append_nil]
    exact Option.map_id'.symm
  | cons c s =>
    ext t
    rw [Option.map_eq_some_iff, decode?_eq_some_iff, encode_cons, ← List.append_assoc,
      append_encodeChar_eq_iff (hs c rfl)]
    refine ⟨?_, ?_⟩
    · intro h
      obtain ⟨u, v, rfl, hu, hv⟩ := h
      obtain rfl := encode_injective hv
      exact ⟨u, decode?_eq_some_iff.mpr hu, rfl⟩
    · intro h
      obtain ⟨u, hu, rfl⟩ := h
      exact ⟨u, s, rfl, decode?_eq_some_iff.mp hu, rfl⟩

/-! ## the first ill-formed sequence -/

/-- There are bytes, and no character has its form at the beginning of them. -/
def StartsIllFormed (bad : Bytes) : Prop :=
  bad ≠ [] ∧ ∀ c tail, bad ≠ String.utf8EncodeChar c ++ tail

/-- the first ill-formed sequence of `bs` comes right after the text `u` -/
def IllFormedAfter (bs : Bytes) (u : Text) : Prop := ∃ bad, bs = encode u ++ bad ∧ StartsIllFormed bad

section

variable {bs : Bytes} {u v : Text}

theorem utf8EncodeChar_ne_nil (c : Char) : String.utf8EncodeChar c ≠ [] := by
  obtain ⟨bs, h⟩ := exists_form c
  rw [encodeChar_of_form h]
  cases h <;> simp

/-- No text goes on where the bytes are ill-formed. -/
theorem StartsIllFormed.eq_nil {bad : Bytes} (h : StartsIllFormed bad) {tail : Bytes}
    (hv : bad = encode v ++ tail) : v = [] := by
  cases v with
  | nil => rfl
  | cons c v =>
    rw [encode_cons, List.append_assoc] at hv
    exact absurd hv (h.2 c _)

theorem IllFormedAfter.not_text (h : IllFormedAfter bs u) (t : Text) : bs ≠ encode t := by
  obtain ⟨bad, rfl, hbad⟩ := h
  intro ht
  obtain ⟨v, -, hv⟩ := encode_append_eq_iff.mp ht
  obtain rfl := hbad.eq_nil (hv.trans (List.append_nil _).symm)
  exact hbad.1 hv

/-- what is read in front of an ill-formed sequence -/
theorem IllFormedAfter.of_append {w : Text} (h : IllFormedAfter (encode w ++ bs) u) :
    ∃ v, u = w ++ v ∧ IllFormedAfter bs v := by
  obtain ⟨bad, hbs, hbad⟩ := h
  rcases List.append_eq_append_iff.mp hbs with ⟨x, hu, hx⟩ | ⟨x, hw, hx⟩
  · obtain ⟨v, rfl, rfl⟩ := encode_append_eq_iff.mp hu.symm
    exact ⟨v, rfl, bad, hx, hbad⟩
  · -- the text `w` does not go on into the ill-formed sequence
    obtain ⟨v, rfl, rfl⟩ := encode_append_eq_iff.mp hw.symm
    obtain rfl := hbad.eq_nil hx
    exact ⟨[], by simp, bad, hx.symm, hbad⟩

theorem IllFormedAfter.unique (h : IllFormedAfter bs u) (h' : IllFormedAfter bs v) : v = u := by
  obtain ⟨bad, rfl, hbad⟩ := h
  obtain ⟨w, rfl, bad', hbad', -⟩ := h'.of_append
  rw [hbad.eq_nil hbad', List.append_nil]

/-- Bytes that are no text cease to be one somewhere. -/
theorem exists_illFormedAfter (h : ∀ t, bs ≠ encode t) : ∃ u, IllFormedAfter bs u := by
  induction hn : bs.length using Nat.strongRecOn generalizing bs with
  | _ n ih =>
    by_cases hchar : ∃ c tail, bs = String.utf8EncodeChar c ++ tail
    · -- the place is behind the character in front
      obtain ⟨c, tail, rfl⟩ := hchar
      have hlt : tail.length < n := by
        have hpos := List.length_pos_iff.mpr (utf8EncodeChar_ne_nil c)
        rw [List.length_append] at hn
        omega
      have htail : ∀ t, tail ≠ encode t := by
        intro t ht
        rw [ht, ← encode_cons] at h
        exact h (c :: t) rfl
      obtain ⟨u, bad, rfl, hbad⟩ := ih _ hlt htail rfl
      refine ⟨c :: u, bad, ?_, hbad⟩
      rw [encode_cons, List.append_assoc]
    · exact ⟨[], bs, rfl, h [], fun c tail hct => hchar ⟨c, tail, hct⟩⟩

end

end Ippcode.Utf8
