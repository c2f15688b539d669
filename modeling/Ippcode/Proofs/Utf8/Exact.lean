import Ippcode.Utf8

/-!
# Reading UTF-8 is exact

`decode?` reads a byte string as the text `t` exactly when the byte string is the UTF-8 form of
`t` (`decode?_eq_some_iff`), and so no two texts have the same form (`encode_injective`), and none
has a form that only begins like one (`encode_append_eq_iff`).

* `Form c bs`            the four forms of a character, by the number of its bytes; `bs` is the
                         UTF-8 form of `c` (`encodeChar_eq_iff`);
* `Completes u tail c`   the bytes `tail` take the machine from the place `u` inside a sequence to
                         its end, and the sequence is `c`;
* `starts_iff`           from between characters the machine reads the four forms, nothing else.
-/

namespace Ippcode.Utf8

/-! ## the four forms of a character -/

/-- a byte that goes on a sequence -/
def IsTail (b : Nat) : Prop := 0x80 ≤ b ∧ b ≤ 0xBF

/-- What may follow a first byte of three: the form must not be overlong, and the character no
surrogate. -/
def Follows3 (a b : Nat) : Prop := IsTail b ∧ (a = 0xE0 → 0xA0 ≤ b) ∧ (a = 0xED → b ≤ 0x9F)

/-- What may follow a first byte of four: the form must not be overlong, and the value not above
U+10FFFF. -/
def Follows4 (a b : Nat) : Prop := IsTail b ∧ (a = 0xF0 → 0x90 ≤ b) ∧ (a = 0xF4 → b ≤ 0x8F)

/-- The value of a byte that goes on a sequence, after the bits in front of it. -/
def joinBits (bits : Nat) (b : UInt8) : Nat := bits * 64 + (b.toNat - 0x80)

inductive Form : Char → Bytes → Prop where
  | one {a : UInt8} : a.toNat ≤ 0x7F → Form (Char.ofNat a.toNat) [a]
  | two {a b : UInt8} : 0xC2 ≤ a.toNat ∧ a.toNat ≤ 0xDF → IsTail b.toNat →
      Form (Char.ofNat (joinBits (a.toNat - 0xC0) b)) [a, b]
  | three {a b c : UInt8} : 0xE0 ≤ a.toNat ∧ a.toNat ≤ 0xEF → Follows3 a.toNat b.toNat →
      IsTail c.toNat → Form (Char.ofNat (joinBits (joinBits (a.toNat - 0xE0) b) c)) [a, b, c]
  | four {a b c d : UInt8} : 0xF0 ≤ a.toNat ∧ a.toNat ≤ 0xF4 → Follows4 a.toNat b.toNat →
      IsTail c.toNat → IsTail d.toNat →
      Form (Char.ofNat (joinBits (joinBits (joinBits (a.toNat - 0xF0) b) c) d)) [a, b, c, d]

theorem toNat_ofNat_of_valid {v : Nat} (h : v.isValidChar) : (Char.ofNat v).val.toNat = v := by
  have hval : Char.ofNat v = Char.ofNatAux v h := dif_pos h
  rw [hval]
  rfl

theorem ofNat_eq_of_toNat {n : Nat} {b : UInt8} (h : n = b.toNat) : UInt8.ofNat n = b := by
  rw [h, UInt8.ofNat_toNat]

theorem encodeChar_of_form {c : Char} {bs : Bytes} (h : Form c bs) :
    String.utf8EncodeChar c = bs := by
  cases h with
  | @one a ha =>
    have hv := toNat_ofNat_of_valid (v := a.toNat) (Or.inl (by omega))
    unfold String.utf8EncodeChar
    simp only [hv]
    rw [if_pos ha, UInt8.ofNat_toNat]
  | @two a b ha hb =>
    obtain ⟨hb1, hb2⟩ := hb
    unfold joinBits
    have hv := toNat_ofNat_of_valid (v := (a.toNat - 0xC0) * 64 + (b.toNat - 0x80))
      (Or.inl (by omega))
    unfold String.utf8EncodeChar
    simp only [hv]
    rw [if_neg (by omega), if_pos (by omega), ofNat_eq_of_toNat (b := a) (by omega),
      ofNat_eq_of_toNat (b := b) (by omega)]
  | @three a b c ha hb hc =>
    obtain ⟨⟨hb1, hb2⟩, hE0, hED⟩ := hb
    obtain ⟨hc1, hc2⟩ := hc
    unfold joinBits
    have hv := toNat_ofNat_of_valid
      (v := ((a.toNat - 0xE0) * 64 + (b.toNat - 0x80)) * 64 + (c.toNat - 0x80)) (by
        by_cases h : a.toNat ≤ 0xED
        · exact Or.inl (by omega)
        · exact Or.inr ⟨by omega, by omega⟩)
    unfold String.utf8EncodeChar
    simp only [hv]
    rw [if_neg (by omega), if_neg (by omega), if_pos (by omega),
      ofNat_eq_of_toNat (b := a) (by omega), ofNat_eq_of_toNat (b := b) (by omega),
      ofNat_eq_of_toNat (b := c) (by omega)]
  | @four a b c d ha hb hc hd =>
    obtain ⟨⟨hb1, hb2⟩, hF0, hF4⟩ := hb
    obtain ⟨hc1, hc2⟩ := hc
    obtain ⟨hd1, hd2⟩ := hd
    unfold joinBits
    have hv := toNat_ofNat_of_valid
      (v := (((a.toNat - 0xF0) * 64 + (b.toNat - 0x80)) * 64 + (c.toNat - 0x80)) * 64
        + (d.toNat - 0x80)) (Or.inr ⟨by omega, by omega⟩)
    unfold String.utf8EncodeChar
    simp only [hv]
    rw [if_neg (by omega), if_neg (by omega), if_neg (by omega),
      ofNat_eq_of_toNat (b := a) (by omega), ofNat_eq_of_toNat (b := b) (by omega),
      ofNat_eq_of_toNat (b := c) (by omega), ofNat_eq_of_toNat (b := d) (by omega)]

theorem toNat_ofNat_of_lt {n : Nat} (h : n < 256) : (UInt8.ofNat n).toNat = n := by
  rw [UInt8.toNat_ofNat', Nat.mod_eq_of_lt h]

/-- Every character has one of the four forms. -/
theorem exists_form (c : Char) : ∃ bs, Form c bs := by
  have hvalid : c.toNat < 0xD800 ∨ 0xDFFF < c.toNat ∧ c.toNat < 0x110000 := c.valid
  by_cases h1 : c.toNat ≤ 0x7F
  · have ha := toNat_ofNat_of_lt (n := c.toNat) (by omega)
    refine ⟨[UInt8.ofNat c.toNat], ?_⟩
    have h := Form.one (a := UInt8.ofNat c.toNat) (by omega)
    rwa [ha, Char.ofNat_toNat] at h
  by_cases h2 : c.toNat ≤ 0x7FF
  · have ha := toNat_ofNat_of_lt (n := c.toNat / 64 + 0xC0) (by omega)
    have hb := toNat_ofNat_of_lt (n := c.toNat % 64 + 0x80) (by omega)
    have h := Form.two (a := UInt8.ofNat (c.toNat / 64 + 0xC0))
      (b := UInt8.ofNat (c.toNat % 64 + 0x80)) ⟨by omega, by omega⟩ ⟨by omega, by omega⟩
    rw [show joinBits _ _ = c.toNat by unfold joinBits; omega, Char.ofNat_toNat] at h
    exact ⟨_, h⟩
  by_cases h3 : c.toNat ≤ 0xFFFF
  · have ha := toNat_ofNat_of_lt (n := c.toNat / 4096 + 0xE0) (by omega)
    have hb := toNat_ofNat_of_lt (n := c.toNat / 64 % 64 + 0x80) (by omega)
    have hc := toNat_ofNat_of_lt (n := c.toNat % 64 + 0x80) (by omega)
    have h := Form.three (a := UInt8.ofNat (c.toNat / 4096 + 0xE0))
      (b := UInt8.ofNat (c.toNat / 64 % 64 + 0x80)) (c := UInt8.ofNat (c.toNat % 64 + 0x80))
      ⟨by omega, by omega⟩ ⟨⟨by omega, by omega⟩, by omega, by omega⟩ ⟨by omega, by omega⟩
    rw [show joinBits _ _ = c.toNat by unfold joinBits; omega, Char.ofNat_toNat] at h
    exact ⟨_, h⟩
  · have ha := toNat_ofNat_of_lt (n := c.toNat / 262144 + 0xF0) (by omega)
    have hb := toNat_ofNat_of_lt (n := c.toNat / 4096 % 64 + 0x80) (by omega)
    have hc := toNat_ofNat_of_lt (n := c.toNat / 64 % 64 + 0x80) (by omega)
    have hd := toNat_ofNat_of_lt (n := c.toNat % 64 + 0x80) (by omega)
    have h := Form.four (a := UInt8.ofNat (c.toNat / 262144 + 0xF0))
      (b := UInt8.ofNat (c.toNat / 4096 % 64 + 0x80))
      (c := UInt8.ofNat (c.toNat / 64 % 64 + 0x80)) (d := UInt8.ofNat (c.toNat % 64 + 0x80))
      ⟨by omega, by omega⟩ ⟨⟨by omega, by omega⟩, by omega, by omega⟩ ⟨by omega, by omega⟩
      ⟨by omega, by omega⟩
    rw [show joinBits _ _ = c.toNat by unfold joinBits; omega, Char.ofNat_toNat] at h
    exact ⟨_, h⟩

theorem encodeChar_eq_iff {c : Char} {bs : Bytes} :
    String.utf8EncodeChar c = bs ↔ Form c bs := by
  refine ⟨fun h => ?_, encodeChar_of_form⟩
  obtain ⟨ds, hds⟩ := exists_form c
  rwa [← h, encodeChar_of_form hds]

/-- A byte below 80 is a whole character. -/
theorem Form.eq_of_mem {c : Char} {bs : Bytes} (h : Form c bs) {b : UInt8} (hb : b ∈ bs)
    (hlt : b.toNat < 0x80) : bs = [b] ∧ c = Char.ofNat b.toNat := by
  cases h with
  | one ha =>
    rw [List.mem_singleton.mp hb]
    exact ⟨rfl, rfl⟩
  | two ha h2 =>
    have := h2.1
    simp only [List.mem_cons, List.not_mem_nil, or_false] at hb
    rcases hb with rfl | rfl <;> omega
  | three ha h2 h3 =>
    have := h2.1.1
    have := h3.1
    simp only [List.mem_cons, List.not_mem_nil, or_false] at hb
    rcases hb with rfl | rfl | rfl <;> omega
  | four ha h2 h3 h4 =>
    have := h2.1.1
    have := h3.1
    have := h4.1
    simp only [List.mem_cons, List.not_mem_nil, or_false] at hb
    rcases hb with rfl | rfl | rfl | rfl <;> omega

/-! ## the machine inside a sequence -/

inductive Completes : Unfinished → Bytes → Char → Prop where
  | whole {u : Unfinished} {b : UInt8} {c : Char} : u.next b.toNat = .whole c → Completes u [b] c
  | more {u v : Unfinished} {b : UInt8} {tail : Bytes} {c : Char} :
      u.next b.toNat = .unfinished v → Completes v tail c → Completes u (b :: tail) c

theorem next_last (bits low high : Nat) (b : UInt8) :
    Unfinished.next ⟨bits, 1, low, high⟩ b.toNat
      = if low ≤ b.toNat ∧ b.toNat ≤ high then .whole (Char.ofNat (joinBits bits b))
        else .illFormed := rfl

theorem next_inner (bits n low high : Nat) (b : UInt8) :
    Unfinished.next ⟨bits, n + 2, low, high⟩ b.toNat
      = if low ≤ b.toNat ∧ b.toNat ≤ high then .unfinished ⟨joinBits bits b, n + 1, 0x80, 0xBF⟩
        else .illFormed := by
  unfold Unfinished.next
  rw [if_neg (show ¬ n + 2 ≤ 1 by omega)]
  rfl

theorem completes_one_iff {bits low high : Nat} {tail : Bytes} {c : Char} :
    Completes ⟨bits, 1, low, high⟩ tail c ↔
      ∃ b : UInt8, tail = [b] ∧ (low ≤ b.toNat ∧ b.toNat ≤ high) ∧
        Char.ofNat (joinBits bits b) = c := by
  constructor
  · intro h
    cases h with
    | @whole u b c hb =>
      rw [next_last] at hb
      split at hb
      · next hr => exact ⟨b, rfl, hr, Reading.whole.inj hb⟩
      · simp at hb
    | @more u v b tail c hb h =>
      rw [next_last] at hb
      split at hb <;> simp at hb
  · intro h'
    obtain ⟨b, rfl, hr, rfl⟩ := h'
    refine .whole ?_
    rw [next_last, if_pos hr]

theorem completes_add_two_iff {bits n low high : Nat} {tail : Bytes} {c : Char} :
    Completes ⟨bits, n + 2, low, high⟩ tail c ↔
      ∃ (b : UInt8) (tail' : Bytes), tail = b :: tail' ∧ (low ≤ b.toNat ∧ b.toNat ≤ high) ∧
        Completes ⟨joinBits bits b, n + 1, 0x80, 0xBF⟩ tail' c := by
  constructor
  · intro h
    cases h with
    | @whole u b c hb =>
      rw [next_inner] at hb
      split at hb <;> simp at hb
    | @more u v b tail c hb h =>
      rw [next_inner] at hb
      split at hb
      · next hr => exact ⟨b, tail, rfl, hr, Reading.unfinished.inj hb ▸ h⟩
      · simp at hb
  · intro h'
    obtain ⟨b, tail', rfl, hr, h⟩ := h'
    refine .more ?_ h
    rw [next_inner, if_pos hr]

/-! ## the first byte -/

theorem first_two {a : Nat} (h : 0xC2 ≤ a ∧ a ≤ 0xDF) :
    first a = .unfinished ⟨a - 0xC0, 1, 0x80, 0xBF⟩ := by
  unfold first
  rw [if_neg (by omega), if_pos h]

theorem first_three {a : Nat} (h : 0xE0 ≤ a ∧ a ≤ 0xEF) :
    ∃ low high, first a = .unfinished ⟨a - 0xE0, 2, low, high⟩ ∧
      ∀ b, low ≤ b ∧ b ≤ high ↔ Follows3 a b := by
  unfold first Follows3 IsTail
  rw [if_neg (by omega), if_neg (by omega)]
  by_cases hE0 : a = 0xE0
  · refine ⟨0xA0, 0xBF, by simp [hE0], fun b => by omega⟩
  by_cases hED : a = 0xED
  · refine ⟨0x80, 0x9F, by simp [hED], fun b => by omega⟩
  · refine ⟨0x80, 0xBF, ?_, fun b => by omega⟩
    rw [if_neg hE0, if_neg hED, if_pos (by omega)]

theorem first_four {a : Nat} (h : 0xF0 ≤ a ∧ a ≤ 0xF4) :
    ∃ low high, first a = .unfinished ⟨a - 0xF0, 3, low, high⟩ ∧
      ∀ b, low ≤ b ∧ b ≤ high ↔ Follows4 a b := by
  unfold first Follows4 IsTail
  rw [if_neg (by omega), if_neg (by omega), if_neg (by omega), if_neg (by omega), if_neg (by omega)]
  by_cases hF0 : a = 0xF0
  · refine ⟨0x90, 0xBF, by simp [hF0], fun b => by omega⟩
  by_cases hF4 : a = 0xF4
  · refine ⟨0x80, 0x8F, by simp [hF4], fun b => by omega⟩
  · refine ⟨0x80, 0xBF, ?_, fun b => by omega⟩
    rw [if_neg hF0, if_neg hF4, if_pos (by omega)]

theorem first_of_none {a : Nat} (h : 0x7F < a) (h2 : ¬ (0xC2 ≤ a ∧ a ≤ 0xDF))
    (h3 : ¬ (0xE0 ≤ a ∧ a ≤ 0xEF)) (h4 : ¬ (0xF0 ≤ a ∧ a ≤ 0xF4)) : first a = .illFormed := by
  unfold first
  rw [if_neg (by omega), if_neg h2, if_neg (by omega), if_neg (by omega), if_neg (by omega),
    if_neg (by omega), if_neg (by omega), if_neg (by omega)]

/-- A sequence that the machine reads from between characters, by its first byte. -/
def Starts (a : UInt8) (tail : Bytes) (c : Char) : Prop :=
  (first a.toNat = .whole c ∧ tail = []) ∨ ∃ u, first a.toNat = .unfinished u ∧ Completes u tail c

theorem form_of_starts {a : UInt8} {tail : Bytes} {c : Char} (h : Starts a tail c) :
    Form c (a :: tail) := by
  by_cases h1 : a.toNat ≤ 0x7F
  · have hf : first a.toNat = .whole (Char.ofNat a.toNat) := if_pos h1
    rw [Starts, hf] at h
    obtain ⟨hc, rfl⟩ | ⟨u, hu, _⟩ := h
    · rw [← Reading.whole.inj hc]
      exact .one h1
    · simp at hu
  by_cases h2 : 0xC2 ≤ a.toNat ∧ a.toNat ≤ 0xDF
  · rw [Starts, first_two h2] at h
    obtain ⟨hc, _⟩ | ⟨u, hu, ht⟩ := h
    · simp at hc
    · rw [← Reading.unfinished.inj hu, completes_one_iff] at ht
      obtain ⟨b, rfl, hb, rfl⟩ := ht
      exact .two h2 hb
  by_cases h3 : 0xE0 ≤ a.toNat ∧ a.toNat ≤ 0xEF
  · obtain ⟨low, high, hf, hr⟩ := first_three h3
    rw [Starts, hf] at h
    obtain ⟨hc, _⟩ | ⟨u, hu, ht⟩ := h
    · simp at hc
    · rw [← Reading.unfinished.inj hu, completes_add_two_iff] at ht
      obtain ⟨b, _, rfl, hb, ht⟩ := ht
      obtain ⟨c, rfl, hc, rfl⟩ := completes_one_iff.mp ht
      exact .three h3 ((hr _).mp hb) hc
  by_cases h4 : 0xF0 ≤ a.toNat ∧ a.toNat ≤ 0xF4
  · obtain ⟨low, high, hf, hr⟩ := first_four h4
    rw [Starts, hf] at h
    obtain ⟨hc, _⟩ | ⟨u, hu, ht⟩ := h
    · simp at hc
    · rw [← Reading.unfinished.inj hu, completes_add_two_iff] at ht
      obtain ⟨b, _, rfl, hb, ht⟩ := ht
      obtain ⟨c, _, rfl, hc, ht⟩ := completes_add_two_iff.mp ht
      obtain ⟨d, rfl, hd, rfl⟩ := completes_one_iff.mp ht
      exact .four h4 ((hr _).mp hb) hc hd
  · rw [Starts, first_of_none (by omega) h2 h3 h4] at h
    simp at h

theorem starts_of_form {a : UInt8} {tail : Bytes} {c : Char} (h : Form c (a :: tail)) :
    Starts a tail c := by
  cases h with
  | one ha => exact .inl ⟨if_pos ha, rfl⟩
  | two ha hb => exact .inr ⟨_, first_two ha, completes_one_iff.mpr ⟨_, rfl, hb, rfl⟩⟩
  | three ha hb hc =>
    obtain ⟨low, high, hf, hr⟩ := first_three ha
    refine .inr ⟨_, hf, completes_add_two_iff.mpr ⟨_, _, rfl, (hr _).mpr hb, ?_⟩⟩
    exact completes_one_iff.mpr ⟨_, rfl, hc, rfl⟩
  | four ha hb hc hd =>
    obtain ⟨low, high, hf, hr⟩ := first_four ha
    refine .inr ⟨_, hf, completes_add_two_iff.mpr ⟨_, _, rfl, (hr _).mpr hb, ?_⟩⟩
    refine completes_add_two_iff.mpr ⟨_, _, rfl, hc, ?_⟩
    exact completes_one_iff.mpr ⟨_, rfl, hd, rfl⟩

theorem starts_iff {a : UInt8} {tail : Bytes} {c : Char} :
    Starts a tail c ↔ String.utf8EncodeChar c = a :: tail :=
  ⟨fun h => encodeChar_of_form (form_of_starts h), fun h => starts_of_form (encodeChar_eq_iff.mp h)⟩

/-! ## the machine over a byte string -/

theorem foldlM_take?_cons (d : Decoder) (b : UInt8) (bs : Bytes) :
    (b :: bs).foldlM Decoder.take? d = (d.take? b).bind fun e => bs.foldlM Decoder.take? e := by
  rw [List.foldlM_cons]
  rfl

theorem foldlM_of_completes {u : Unfinished} {tail : Bytes} {c : Char} (h : Completes u tail c)
    (t : Text) (bs : Bytes) :
    (tail ++ bs).foldlM Decoder.take? ⟨t, some u⟩ = bs.foldlM Decoder.take? ⟨c :: t, none⟩ := by
  induction h with
  | @whole u b c hb =>
    have hd : Decoder.take? ⟨t, some u⟩ b = some ⟨c :: t, none⟩ := by
      simp [Decoder.take?, Decoder.read, hb]
    rw [List.cons_append, foldlM_take?_cons, hd]
    rfl
  | @more u v b tail c hb _ ih =>
    have hd : Decoder.take? ⟨t, some u⟩ b = some ⟨t, some v⟩ := by
      simp [Decoder.take?, Decoder.read, hb]
    rw [List.cons_append, foldlM_take?_cons, hd]
    exact ih

theorem foldlM_of_starts {a : UInt8} {tail : Bytes} {c : Char} (h : Starts a tail c)
    (t : Text) (bs : Bytes) :
    (a :: tail ++ bs).foldlM Decoder.take? ⟨t, none⟩ = bs.foldlM Decoder.take? ⟨c :: t, none⟩ := by
  rw [List.cons_append, foldlM_take?_cons]
  obtain ⟨hc, rfl⟩ | ⟨u, hu, ht⟩ := h
  · have hd : Decoder.take? ⟨t, none⟩ a = some ⟨c :: t, none⟩ := by
      simp [Decoder.take?, Decoder.read, hc]
    rw [hd]
    rfl
  · have hd : Decoder.take? ⟨t, none⟩ a = some ⟨t, some u⟩ := by
      simp [Decoder.take?, Decoder.read, hu]
    rw [hd]
    exact foldlM_of_completes ht t bs

/-- Inside a sequence the machine gets between characters again only at the end of it. -/
theorem completes_of_foldlM {u : Unfinished} {t t' : Text} {bs : Bytes}
    (h : bs.foldlM Decoder.take? ⟨t, some u⟩ = some ⟨t', none⟩) :
    ∃ tail c rest, bs = tail ++ rest ∧ Completes u tail c ∧
      rest.foldlM Decoder.take? ⟨c :: t, none⟩ = some ⟨t', none⟩ := by
  induction bs generalizing u with
  | nil => simp at h
  | cons b bs ih =>
    rw [foldlM_take?_cons] at h
    obtain ⟨e, he, h⟩ := Option.bind_eq_some_iff.mp h
    simp only [Decoder.take?, Decoder.read] at he
    split at he
    · next c hc =>
      rw [← Option.some.inj he] at h
      exact ⟨[b], c, bs, rfl, .whole hc, h⟩
    · next v hv =>
      rw [← Option.some.inj he] at h
      obtain ⟨tail, c, rest, rfl, ht, hrest⟩ := ih h
      exact ⟨b :: tail, c, rest, rfl, .more hv ht, hrest⟩
    · simp at he

theorem starts_of_foldlM {t t' : Text} {b : UInt8} {bs : Bytes}
    (h : (b :: bs).foldlM Decoder.take? ⟨t, none⟩ = some ⟨t', none⟩) :
    ∃ tail c rest, bs = tail ++ rest ∧ Starts b tail c ∧
      rest.foldlM Decoder.take? ⟨c :: t, none⟩ = some ⟨t', none⟩ := by
  rw [foldlM_take?_cons] at h
  obtain ⟨e, he, h⟩ := Option.bind_eq_some_iff.mp h
  simp only [Decoder.take?, Decoder.read] at he
  split at he
  · next c hc =>
    rw [← Option.some.inj he] at h
    exact ⟨[], c, bs, rfl, .inl ⟨hc, rfl⟩, h⟩
  · next u hu =>
    rw [← Option.some.inj he] at h
    obtain ⟨tail, c, rest, rfl, ht, hrest⟩ := completes_of_foldlM h
    exact ⟨tail, c, rest, rfl, .inr ⟨u, hu, ht⟩, hrest⟩
  · simp at he

theorem foldlM_encode (t s : Text) :
    (encode s).foldlM Decoder.take? ⟨t, none⟩ = some ⟨s.reverse ++ t, none⟩ := by
  induction s generalizing t with
  | nil => rfl
  | cons c s ih =>
    obtain ⟨bs, hbs⟩ := exists_form c
    have he := encodeChar_of_form hbs
    obtain ⟨a, tail, rfl⟩ : ∃ a tail, bs = a :: tail := by cases hbs <;> exact ⟨_, _, rfl⟩
    rw [encode_cons, he, foldlM_of_starts (starts_iff.mpr he), ih]
    simp

theorem encode_of_foldlM {t t' : Text} {bs : Bytes}
    (h : bs.foldlM Decoder.take? ⟨t, none⟩ = some ⟨t', none⟩) :
    ∃ s, bs = encode s ∧ t' = s.reverse ++ t := by
  induction hn : bs.length using Nat.strongRecOn generalizing bs t with
  | _ n ih =>
    cases bs with
    | nil =>
      simp only [List.foldlM_nil] at h
      obtain ⟨rfl, -⟩ := Decoder.mk.inj (Option.some.inj h)
      exact ⟨[], rfl, rfl⟩
    | cons b bs =>
      obtain ⟨tail, c, rest, rfl, hs, hrest⟩ := starts_of_foldlM h
      have hlt : rest.length < n := by
        rw [← hn]
        simp only [List.length_cons, List.length_append]
        omega
      obtain ⟨s, rfl, rfl⟩ := ih _ hlt hrest rfl
      refine ⟨c :: s, ?_, by simp⟩
      rw [encode_cons, starts_iff.mp hs, List.cons_append]

/-! ## reading back -/

theorem decode?_encode (t : Text) : decode? (encode t) = some t := by
  rw [decode?, Decoder.start, foldlM_encode]
  simp [Decoder.finish?]

theorem encode_of_decode? {bs : Bytes} {t : Text} (h : decode? bs = some t) : encode t = bs := by
  obtain ⟨⟨t', u⟩, hd, hf⟩ := Option.bind_eq_some_iff.mp h
  cases u with
  | some u => simp [Decoder.finish?] at hf
  | none =>
    obtain ⟨s, rfl, rfl⟩ := encode_of_foldlM hd
    simp only [Decoder.finish?, List.append_nil, List.reverse_reverse] at hf
    rw [Option.some.inj hf]

/-- **A byte string is read as a text exactly when it is the UTF-8 form of the text.** -/
theorem decode?_eq_some_iff {bs : Bytes} {t : Text} : decode? bs = some t ↔ bs = encode t :=
  ⟨fun h => (encode_of_decode? h).symm, fun h => h ▸ decode?_encode t⟩

theorem decode?_eq_none_iff {bs : Bytes} : decode? bs = none ↔ ∀ t, bs ≠ encode t := by
  rw [Option.eq_none_iff_forall_ne_some]
  exact forall_congr' fun t => not_congr decode?_eq_some_iff

theorem encode_injective {s t : Text} (h : encode s = encode t) : s = t := by
  have hs := decode?_encode s
  rw [h, decode?_encode] at hs
  exact (Option.some.inj hs).symm

/-- What begins with a text is a text as a whole where the rest is one. -/
theorem encode_append_eq_iff {s t : Text} {a : Bytes} :
    encode s ++ a = encode t ↔ ∃ v, t = s ++ v ∧ a = encode v := by
  refine ⟨fun h => ?_, ?_⟩
  · have hrun := foldlM_encode [] t
    rw [← h, List.foldlM_append, foldlM_encode] at hrun
    obtain ⟨v, ha, ht⟩ := encode_of_foldlM hrun
    refine ⟨v, ?_, ha⟩
    rw [List.append_nil, List.append_nil, ← List.reverse_append] at ht
    exact List.reverse_inj.mp ht
  · intro h
    obtain ⟨v, rfl, rfl⟩ := h
    exact (encode_append s v).symm

/-- Behind a text the bytes are read as they are read alone. -/
theorem decode?_encode_append (s : Text) (a : Bytes) :
    decode? (encode s ++ a) = (decode? a).map fun t => s ++ t := by
  ext t
  rw [Option.map_eq_some_iff, decode?_eq_some_iff, encode_append_eq_iff]
  refine exists_congr fun v => ?_
  rw [decode?_eq_some_iff, eq_comm (a := t)]
  exact and_comm

theorem encode_eq_nil_iff {t : Text} : encode t = [] ↔ t = [] := by
  refine ⟨fun h => encode_injective h, ?_⟩
  rintro rfl
  exact encode_nil

end Ippcode.Utf8
