import Ippcode.Proofs.Text.Fields

/-!
# The limited split, without splitting

What it is to stand in a text as words with separators between them, and then as the rest of the
text in one piece (`Splits`).  A limited split gives such pieces and no others
(`fieldsUpTo_eq_iff_splits`), so what holds of its pieces is shown by induction on how they stand in
the text:

* `Splits.take_eq`     up to the limit the pieces are the fields;
* `Splits.exists_rest` past the limit the last piece is what the text has from a field on, to its
                       end;
* `Splits.joined`      the same pieces stand in another text, with one space between them.

`Splits.eq_fields` and `Splits.fields_eq` say when the pieces are all the fields: a limit that is not
passed does not matter, and a limited split into words shows no less than all fields.
-/

namespace Ippcode.Text

/-- separators, at least one -/
def IsGap (e : Text) : Prop := e ≠ [] ∧ ∀ c ∈ e, isSeparator c = true

/-- The pieces `ws` stand in the text, in order: words with gaps between them, and after `n` words
the rest in one piece. -/
inductive Splits : Nat → List Text → Text → Prop where
  | nil (n : Nat) : Splits n [] []
  | single (n : Nat) {w : Text} : IsWord w → Splits n [w] w
  | rest {t : Text} : t ≠ [] → IsTrimmed isSeparator t → Splits 0 [t] t
  | cons {n : Nat} {w e t : Text} {ws : List Text} : IsWord w → IsGap e → t ≠ [] → Splits n ws t →
      Splits (n + 1) (w :: ws) (w ++ (e ++ t))

/-! ## gaps -/

section

variable {w e t : Text}

theorem word_gap (h : IsGap e) (t : Text) : word (e ++ t) = [] := by
  obtain ⟨c, e, rfl⟩ := List.exists_cons_of_ne_nil h.1
  have hc := h.2 c (List.mem_cons_self ..)
  exact List.takeWhile_cons_of_neg (by simp [hc])

theorem dropWhile_gap (h : IsGap e) (ht : ∀ c, t.head? = some c → isSeparator c = false) :
    (e ++ t).dropWhile isSeparator = t :=
  dropWhile_append_eq_right h.2 ht

theorem afterWord_gap (h : IsGap e) (ht : ∀ c, t.head? = some c → isSeparator c = false) :
    afterWord (e ++ t) = t := by
  obtain ⟨c, e, rfl⟩ := List.exists_cons_of_ne_nil h.1
  have hc := h.2 c (List.mem_cons_self ..)
  rw [afterWord, List.cons_append, List.dropWhile_cons_of_neg (by simp [hc]), ← List.cons_append,
    dropWhile_gap h ht]

theorem afterWord_nil : afterWord [] = [] := rfl

theorem fields_gap (h : IsGap e) (t : Text) : fields (e ++ t) = fields t := by
  rw [← fields_dropWhile, List.dropWhile_append_of_pos h.2, fields_dropWhile]

theorem fields_word_gap (hw : IsWord w) (he : IsGap e) (t : Text) :
    fields (w ++ (e ++ t)) = w :: fields t := by
  obtain ⟨c, e', rfl⟩ := List.exists_cons_of_ne_nil he.1
  have hc := he.2 c (List.mem_cons_self ..)
  rw [← fields_gap he t, List.cons_append, fields_append hc, fields_word hw,
    fields_cons_separator hc]
  rfl

/-- What follows the first word of a text follows it after a gap. -/
theorem exists_gap (ha : afterWord t ≠ []) : ∃ e, IsGap e ∧ t = word t ++ (e ++ afterWord t) := by
  cases hr : t.dropWhile (!isSeparator ·) with
  | nil =>
    rw [afterWord, hr] at ha
    exact absurd rfl ha
  | cons c r =>
    have hc : (!isSeparator c) = false := head?_dropWhile (t := t) (by rw [hr]; rfl)
    rw [Bool.not_eq_false'] at hc
    refine ⟨(c :: r).takeWhile isSeparator, ⟨?_, ?_⟩, ?_⟩
    · rw [List.takeWhile_cons_of_pos hc]
      simp
    · intro d hd
      exact List.all_eq_true.mp List.all_takeWhile d hd
    · rw [afterWord, hr, List.takeWhile_append_dropWhile, ← hr]
      exact List.takeWhile_append_dropWhile.symm

end

/-! ## the limited split -/

/-- A limited split gives pieces that stand in the text. -/
theorem splits_fieldsUpTo (n : Nat) {t : Text} (h : IsTrimmed isSeparator t) :
    Splits n (fieldsUpTo (n + 1) t) t := by
  induction n generalizing t with
  | zero =>
    by_cases hne : t = []
    · rw [hne, fieldsUpTo_nil]
      exact .nil 0
    · rw [fieldsUpTo_one hne]
      exact .rest hne h
  | succ n ih =>
    by_cases hne : t = []
    · rw [hne, fieldsUpTo_nil]
      exact .nil _
    have hw := isWord_word h.1 hne
    rw [fieldsUpTo_add_two n hne]
    by_cases ha : afterWord t = []
    · have ht := word_eq_self h ha
      rw [ht] at hw ⊢
      rw [ha, fieldsUpTo_nil]
      exact .single _ hw
    · obtain ⟨e, he, ht⟩ := exists_gap ha
      have hcons := Splits.cons hw he ha (ih (isTrimmed_afterWord h))
      rwa [← ht] at hcons

section

variable {n : Nat} {ws : List Text} {t : Text}

theorem Splits.isTrimmed (h : Splits n ws t) : IsTrimmed isSeparator t := by
  induction h with
  | nil => exact isTrimmed_of_forall (by simp)
  | single _ hw => exact isTrimmed_of_forall hw.2
  | rest _ ht => exact ht
  | @cons n w e t ws hw he hne _ ih =>
    refine ⟨?_, ?_⟩
    · intro c hc
      obtain ⟨d, w, rfl⟩ := List.exists_cons_of_ne_nil hw.1
      rw [← Option.some.inj hc]
      exact hw.2 d (List.mem_cons_self ..)
    · intro c hc
      have hlast := List.getLast?_eq_some_getLast hne
      rw [List.getLast?_append, List.getLast?_append, hlast] at hc
      obtain rfl := Option.some.inj hc
      exact ih.2 _ hlast

/-- Pieces that stand in a text are those of its limited split. -/
theorem Splits.fieldsUpTo_eq (h : Splits n ws t) : fieldsUpTo (n + 1) t = ws := by
  induction h with
  | nil n => exact fieldsUpTo_nil _
  | @single n w hw =>
    cases n with
    | zero => exact fieldsUpTo_one hw.1
    | succ n =>
      have hw' := fieldsUpTo_word_append (r := []) hw.1 hw.2 rfl n
      rw [List.append_nil] at hw'
      rw [hw', afterWord_nil, fieldsUpTo_nil]
  | rest hne => exact fieldsUpTo_one hne
  | cons hw he hne hs ih =>
    rw [fieldsUpTo_word_append hw.1 hw.2 (word_gap he _), afterWord_gap he hs.isTrimmed.1, ih]

/-- **The limited split of a text gives the pieces that stand in it, and no others.** -/
theorem fieldsUpTo_eq_iff_splits (h : IsTrimmed isSeparator t) :
    fieldsUpTo (n + 1) t = ws ↔ Splits n ws t := by
  refine ⟨?_, Splits.fieldsUpTo_eq⟩
  rintro rfl
  exact splits_fieldsUpTo n h

/-! ## what the pieces are -/

theorem Splits.isPiece (h : Splits n ws t) :
    ∀ w ∈ ws, w ≠ [] ∧ IsTrimmed isSeparator w ∧ ∀ c ∈ w, c ∈ t := by
  induction h with
  | nil => simp
  | single _ hw => exact List.forall_mem_singleton.mpr ⟨hw.1, isTrimmed_of_forall hw.2, fun _ => id⟩
  | rest hne ht => exact List.forall_mem_singleton.mpr ⟨hne, ht, fun _ => id⟩
  | cons hw _ _ _ ih =>
    refine List.forall_mem_cons.mpr ⟨⟨hw.1, isTrimmed_of_forall hw.2, ?_⟩, ?_⟩
    · intro c hc
      exact List.mem_append_left _ hc
    · intro v hv
      obtain ⟨hne, ht, hmem⟩ := ih v hv
      exact ⟨hne, ht, fun c hc => List.mem_append_right _ (List.mem_append_right _ (hmem c hc))⟩

theorem Splits.length_eq (h : Splits n ws t) : ws.length = min (fields t).length (n + 1) := by
  induction h with
  | nil => rw [fields_nil]; rfl
  | single n hw =>
    rw [fields_word hw, List.length_singleton]
    omega
  | @rest t hne ht =>
    have hpos := List.length_pos_iff.mpr (fields_ne_nil ht hne)
    rw [List.length_singleton]
    omega
  | cons hw he _ _ ih =>
    rw [fields_word_gap hw he, List.length_cons, List.length_cons, ih]
    omega

/-- Up to the limit the pieces are the fields. -/
theorem Splits.take_eq (h : Splits n ws t) : ws.take n = (fields t).take n := by
  induction h with
  | nil => rw [fields_nil]
  | single _ hw => rw [fields_word hw]
  | rest => rw [List.take_zero, List.take_zero]
  | cons hw he _ _ ih => rw [fields_word_gap hw he, List.take_succ_cons, List.take_succ_cons, ih]

theorem Splits.getElem?_eq (h : Splits n ws t) {i : Nat} (hi : i < n) : ws[i]? = (fields t)[i]? := by
  rw [← List.getElem?_take_of_lt hi, h.take_eq, List.getElem?_take_of_lt hi]

/-- Where the limit is not passed they are all the fields. -/
theorem Splits.eq_fields (h : Splits n ws t) (hn : (fields t).length ≤ n + 1) : ws = fields t := by
  induction h with
  | nil => exact fields_nil.symm
  | single _ hw => exact (fields_word hw).symm
  | @rest t hne ht =>
    rw [fields_eq_cons ht.1 hne, List.length_cons] at hn
    -- there is one field only, and so nothing after the first word
    have ha : afterWord t = [] := by
      by_cases ha : afterWord t = []
      · exact ha
      · have hpos := List.length_pos_iff.mpr (fields_ne_nil (isTrimmed_afterWord ht) ha)
        omega
    rw [fields_eq_cons ht.1 hne, ha, fields_nil, word_eq_self ht ha]
  | cons hw he _ _ ih =>
    rw [fields_word_gap hw he, List.length_cons] at hn
    rw [fields_word_gap hw he, ih (Nat.le_of_succ_le_succ hn)]

/-- Pieces without separators are all the fields. -/
theorem Splits.fields_eq (h : Splits n ws t) (hws : ∀ w ∈ ws, IsWord w) : fields t = ws := by
  induction h with
  | nil => exact fields_nil
  | single _ hw => exact fields_word hw
  | rest => exact fields_word (hws _ (List.mem_singleton.mpr rfl))
  | cons hw he _ _ ih =>
    rw [fields_word_gap hw he, ih fun v hv => hws v (List.mem_cons_of_mem _ hv)]

/-- Past the limit the last piece is the text from a field on, to its end. -/
theorem Splits.exists_rest (h : Splits n ws t) (hn : n < (fields t).length) :
    ∃ before w tail, t = before ++ (w ++ tail) ∧ ws[n]? = some (w ++ tail) ∧
      (fields t)[n]? = some w ∧ fields before = (fields t).take n ∧
      ∀ c, before.getLast? = some c → isSeparator c = true := by
  induction h with
  | nil =>
    rw [fields_nil] at hn
    exact absurd hn (Nat.not_lt_zero _)
  | @single n w hw =>
    rw [fields_word hw, List.length_singleton] at hn
    obtain rfl := Nat.lt_one_iff.mp hn
    refine ⟨[], w, [], (List.append_nil w).symm, ?_, ?_, fields_nil, by simp⟩
    · rw [List.append_nil]
      rfl
    · rw [fields_word hw]
      rfl
  | @rest t hne ht =>
    have hparts : word t ++ t.dropWhile (!isSeparator ·) = t := List.takeWhile_append_dropWhile
    refine ⟨[], word t, t.dropWhile (!isSeparator ·), hparts.symm, ?_, ?_, fields_nil, by simp⟩
    · rw [hparts]
      rfl
    · rw [fields_eq_cons ht.1 hne]
      rfl
  | @cons n v e t ws hv he _ _ ih =>
    rw [fields_word_gap hv he] at hn ⊢
    obtain ⟨before, w, tail, rfl, hlast, hfield, hbefore, hsep⟩ := ih (Nat.lt_of_succ_lt_succ hn)
    refine ⟨v ++ (e ++ before), w, tail, by simp, hlast, hfield, ?_, ?_⟩
    · rw [fields_word_gap hv he, hbefore, List.take_succ_cons]
    · intro c hc
      rw [← List.append_assoc, List.getLast?_append] at hc
      cases hb : before.getLast? with
      | some d =>
        rw [hb] at hc
        obtain rfl : d = c := Option.some.inj hc
        exact hsep d hb
      | none =>
        rw [hb, Option.none_or, List.getLast?_append, List.getLast?_eq_some_getLast he.1] at hc
        obtain rfl := Option.some.inj hc
        exact he.2 _ (List.getLast_mem he.1)

/-- A limit that is not passed does not matter. -/
theorem fieldsUpTo_eq_fields (h : IsTrimmed isSeparator t) (hn : (fields t).length ≤ n + 1) :
    fieldsUpTo (n + 1) t = fields t :=
  (splits_fieldsUpTo n h).eq_fields hn

/-- A limited split into words shows no less than all fields. -/
theorem fieldsUpTo_eq_iff (h : IsTrimmed isSeparator t) (hws : ∀ w ∈ ws, IsWord w)
    (hn : ws.length ≤ n + 1) : fieldsUpTo (n + 1) t = ws ↔ fields t = ws := by
  refine ⟨fun hu => ?_, fun hf => ?_⟩
  · exact ((fieldsUpTo_eq_iff_splits h).mp hu).fields_eq hws
  · rw [← hf] at hn
    rw [fieldsUpTo_eq_fields h hn, hf]

/-! ## the same pieces in another text -/

theorem Splits.eq_nil_iff (h : Splits n ws t) : ws = [] ↔ t = [] := by
  cases h with
  | nil => simp
  | single _ hw => simp [hw.1]
  | rest hne => simp [hne]
  | cons hw => simp [hw.1]

theorem mem_joined {sep : Text} {ts : List Text} {c : Char} (h : c ∈ joined sep ts) :
    c ∈ sep ∨ ∃ u ∈ ts, c ∈ u := by
  induction ts with
  | nil => exact absurd h List.not_mem_nil
  | cons u ts ih =>
    cases ts with
    | nil =>
      rw [joined_singleton] at h
      exact .inr ⟨u, List.mem_singleton.mpr rfl, h⟩
    | cons v ts =>
      rw [joined_cons_cons] at h
      rcases List.mem_append.mp h with h | h
      · exact .inr ⟨u, List.mem_cons_self .., h⟩
      · rcases List.mem_append.mp h with h | h
        · exact .inl h
        · exact (ih h).imp_right fun ⟨w, hw, hc⟩ => ⟨w, List.mem_cons_of_mem _ hw, hc⟩

theorem isGap_space : IsGap [' '] := ⟨by simp, by decide⟩

/-- Wider gaps or narrower ones, the pieces are the same. -/
theorem Splits.joined (h : Splits n ws t) : Splits n ws (joined [' '] ws) := by
  induction h with
  | nil n => exact .nil n
  | single n hw =>
    rw [joined_singleton]
    exact .single n hw
  | rest hne ht =>
    rw [joined_singleton]
    exact .rest hne ht
  | @cons n w e t ws hw _ hne hs ih =>
    obtain ⟨u, us, rfl⟩ := List.exists_cons_of_ne_nil (mt hs.eq_nil_iff.mp hne)
    rw [joined_cons_cons]
    exact .cons hw isGap_space (mt ih.eq_nil_iff.mpr (by simp)) ih

end

/-- words, one space between every two of them -/
theorem splits_joined_words {w : Text} {ws : List Text} (h : ∀ v ∈ w :: ws, IsWord v) :
    Splits ws.length (w :: ws) (joined [' '] (w :: ws)) := by
  induction ws generalizing w with
  | nil =>
    rw [joined_singleton]
    exact .single 0 (h w (List.mem_cons_self ..))
  | cons v ws ih =>
    rw [List.forall_mem_cons] at h
    have hrest := ih h.2
    rw [joined_cons_cons]
    exact .cons h.1 isGap_space (mt hrest.eq_nil_iff.mpr (by simp)) hrest

end Ippcode.Text
