import Ippcode.Text

/-!
# Trimming, fields and words

`trim p` takes the characters of `p` off both ends of a text and stops at the first other one.

* `IsTrimmed p t`                       no character of `p` stands at an end of `t`;
* `trim_eq_self`, `isTrimmed_trim`      trimming gives trimmed texts and leaves them alone;
* `exists_append_trim`                  what it takes off stands around what it leaves;
* `trim_append_right`, `trim_append_left`   what is added at an end does not matter.

The fields of a text, and the two steps of a limited split, the first word and what comes after
it:

* `fields_append`             fields are found on each side of a separator;
* `fields_eq_cons`            the first field is the first word;
* `fieldsUpTo_word_append`    a word in front is the first piece;
* `word_eq_self`              a trimmed text with nothing after its first word is that word.
-/

namespace Ippcode.Text

/-! ## trimming -/

/-- What holds of all characters of a text is decided by going through the text, not through all
characters there are. -/
instance (priority := high) decidableForallMem (t : Text) (q : Char → Prop) [DecidablePred q] :
    Decidable (∀ c, c ∈ t → q c) := List.decidableBAll q t

section

variable {p : Char → Bool}

/-- no character of `p` at either end -/
def IsTrimmed (p : Char → Bool) (t : Text) : Prop :=
  (∀ c, t.head? = some c → p c = false) ∧ (∀ c, t.getLast? = some c → p c = false)

/-- a text without any character of `p` -/
theorem isTrimmed_of_forall {t : Text} (h : ∀ c ∈ t, p c = false) : IsTrimmed p t := by
  constructor
  · intro c hc
    exact h c (List.mem_of_head? hc)
  · intro c hc
    exact h c (List.mem_of_getLast? hc)

theorem dropWhile_eq_self {t : Text} (h : ∀ c, t.head? = some c → p c = false) :
    t.dropWhile p = t := by
  cases t with
  | nil => rfl
  | cons c t =>
    have hc := h c rfl
    rw [List.dropWhile_cons_of_neg (by simp [hc])]

/-! A run of characters of `p`, and then something that does not go on with one. -/

section

variable {a b : Text} (ha : ∀ c ∈ a, p c = true) (hb : ∀ c, b.head? = some c → p c = false)
include ha hb

theorem dropWhile_append_eq_right : (a ++ b).dropWhile p = b := by
  rw [List.dropWhile_append_of_pos ha, dropWhile_eq_self hb]

theorem takeWhile_append_eq_left : (a ++ b).takeWhile p = a := by
  have hcut : (a ++ b).takeWhile p ++ (a ++ b).dropWhile p = a ++ b :=
    List.takeWhile_append_dropWhile
  rw [dropWhile_append_eq_right ha hb] at hcut
  exact List.append_cancel_right hcut

end

theorem trim_eq_self {t : Text} (h : IsTrimmed p t) : trim p t = t := by
  have hlast : ∀ c, t.reverse.head? = some c → p c = false := by
    intro c hc
    rw [List.head?_reverse] at hc
    exact h.2 c hc
  rw [trim, dropWhile_eq_self h.1, dropWhile_eq_self hlast, List.reverse_reverse]

theorem head?_dropWhile {t : Text} {c : Char} (h : (t.dropWhile p).head? = some c) :
    p c = false := by
  have hp := List.head?_dropWhile_not p t
  rw [h] at hp
  simpa using hp

/-- what trimming takes off on the right, after it is done on the left -/
theorem dropWhile_eq_trim_append (p : Char → Bool) (t : Text) :
    t.dropWhile p = trim p t ++ ((t.dropWhile p).reverse.takeWhile p).reverse := by
  rw [trim, ← List.reverse_append, List.takeWhile_append_dropWhile, List.reverse_reverse]

theorem isTrimmed_trim (t : Text) : IsTrimmed p (trim p t) := by
  constructor
  · intro c hc
    -- trimming on the right leaves the first character where it is
    apply head?_dropWhile (p := p) (t := t)
    rw [dropWhile_eq_trim_append, List.head?_append, hc]
    rfl
  · intro c hc
    rw [trim, List.getLast?_reverse] at hc
    exact head?_dropWhile hc

/-- What trimming takes off stands around what it leaves; where it leaves nothing, all of it is
taken off on the left. -/
theorem exists_append_trim (p : Char → Bool) (t : Text) : ∃ a b, t = a ++ (trim p t ++ b) ∧
    (∀ c ∈ a, p c = true) ∧ (∀ c ∈ b, p c = true) ∧ (trim p t = [] → b = []) := by
  refine ⟨t.takeWhile p, ((t.dropWhile p).reverse.takeWhile p).reverse, ?_, ?_, ?_, ?_⟩
  · rw [← dropWhile_eq_trim_append, List.takeWhile_append_dropWhile]
  · exact List.all_eq_true.mp List.all_takeWhile
  · intro c hc
    exact List.all_eq_true.mp List.all_takeWhile c (List.mem_reverse.mp hc)
  · intro h
    have hd := dropWhile_eq_trim_append p t
    rw [h, List.nil_append] at hd
    cases hb : ((t.dropWhile p).reverse.takeWhile p).reverse with
    | nil => rfl
    | cons c b =>
      -- a first character that is taken off on the right would be gone from the left
      have hc : p c = false := head?_dropWhile (t := t) (by rw [hd, hb]; rfl)
      have hmem : c ∈ (t.dropWhile p).reverse.takeWhile p := by
        rw [← List.mem_reverse, hb]
        exact List.mem_cons_self ..
      rw [List.all_eq_true.mp List.all_takeWhile c hmem] at hc
      exact absurd hc.symm Bool.false_ne_true

theorem trim_append_left {s : Text} (h : ∀ c ∈ s, p c = true) (t : Text) :
    trim p (s ++ t) = trim p t := by
  rw [trim, List.dropWhile_append_of_pos h, trim]

theorem trim_append_right {s : Text} (h : ∀ c ∈ s, p c = true) (t : Text) :
    trim p (t ++ s) = trim p t := by
  have hs : ∀ c ∈ s.reverse, p c = true := fun c hc => h c (List.mem_reverse.mp hc)
  rw [trim, trim, List.dropWhile_append]
  split
  · next hnil =>
    rw [List.isEmpty_iff.mp hnil]
    have hds : (s ++ []).dropWhile p = [].dropWhile p := List.dropWhile_append_of_pos h
    rw [List.append_nil] at hds
    rw [hds]
    rfl
  · rw [List.reverse_append, List.dropWhile_append_of_pos hs]

end

/-! ## words -/

/-- a word: not empty, and without separators -/
def IsWord (w : Text) : Prop := w ≠ [] ∧ ∀ c ∈ w, isSeparator c = false

/-! ## all fields -/

theorem fields_append {c : Char} (hc : isSeparator c = true) (a b : Text) :
    fields (a ++ c :: b) = fields a ++ fields b := by
  rw [fields, List.splitOnP_append_cons a b hc, List.filter_append]
  rfl

theorem fields_cons_separator {c : Char} (hc : isSeparator c = true) (t : Text) :
    fields (c :: t) = fields t := by
  have h := fields_append hc [] t
  rwa [fields_nil] at h

theorem fields_word {w : Text} (h : IsWord w) : fields w = [w] := by
  rw [fields, List.splitOnP_eq_singleton h.2]
  simp [h.1]

/-- A text is cut into fields on each side of a separator. -/
theorem fields_append_of_getLast? {a : Text} (h : ∀ c, a.getLast? = some c → isSeparator c = true)
    (b : Text) : fields (a ++ b) = fields a ++ fields b := by
  cases ha : a.getLast? with
  | none =>
    rw [List.getLast?_eq_none_iff.mp ha, fields_nil]
    rfl
  | some c =>
    obtain ⟨u, rfl⟩ := List.getLast?_eq_some_iff.mp ha
    have hc : isSeparator c = true := h c ha
    rw [List.append_assoc, List.singleton_append, fields_append hc, fields_append hc u [],
      fields_nil, List.append_nil]

theorem fields_dropWhile (t : Text) : fields (t.dropWhile isSeparator) = fields t := by
  induction t with
  | nil => rfl
  | cons c t ih =>
    by_cases hc : isSeparator c = true
    · rw [List.dropWhile_cons_of_pos hc, ih, fields_cons_separator hc]
    · rw [List.dropWhile_cons_of_neg hc]

/-- the word in front, where there is one -/
theorem isWord_word {t : Text} (h : ∀ c, t.head? = some c → isSeparator c = false) (hne : t ≠ []) :
    IsWord (word t) := by
  obtain ⟨c, t, rfl⟩ := List.exists_cons_of_ne_nil hne
  have hc : isSeparator c = false := h c rfl
  constructor
  · rw [word, List.takeWhile_cons_of_pos (by simp [hc])]
    simp
  · intro d hd
    have hall := List.all_eq_true.mp (List.all_takeWhile (p := fun c => !isSeparator c)) d hd
    simpa using hall

theorem fields_eq_cons {t : Text} (h : ∀ c, t.head? = some c → isSeparator c = false)
    (hne : t ≠ []) : fields t = word t :: fields (afterWord t) := by
  have hw := isWord_word h hne
  have ht : word t ++ t.dropWhile (!isSeparator ·) = t := List.takeWhile_append_dropWhile
  rw [afterWord, fields_dropWhile]
  cases hr : t.dropWhile (!isSeparator ·) with
  | nil =>
    rw [hr, List.append_nil] at ht
    rw [fields_nil, ← fields_word hw, ht]
  | cons c r =>
    have hc : isSeparator c = true := by
      have := head?_dropWhile (p := (!isSeparator ·)) (t := t) (c := c) (by rw [hr]; rfl)
      simpa using this
    rw [hr] at ht
    calc fields t = fields (word t ++ c :: r) := by rw [ht]
      _ = word t :: fields (c :: r) := by
        rw [fields_append hc, fields_word hw, fields_cons_separator hc]
        rfl

/-! ## the first word and what comes after it -/

theorem word_append {w : Text} (hw : ∀ c ∈ w, isSeparator c = false) (r : Text) :
    word (w ++ r) = w ++ word r := by
  have hpos : ∀ c ∈ w, (!isSeparator c) = true := fun c hc => by rw [hw c hc]; rfl
  exact List.takeWhile_append_of_pos hpos

theorem afterWord_append {w : Text} (hw : ∀ c ∈ w, isSeparator c = false) (r : Text) :
    afterWord (w ++ r) = afterWord r := by
  have hpos : ∀ c ∈ w, (!isSeparator c) = true := fun c hc => by rw [hw c hc]; rfl
  rw [afterWord, List.dropWhile_append_of_pos hpos, afterWord]

theorem fieldsUpTo_word_append {w r : Text} (hne : w ≠ [])
    (hw : ∀ c ∈ w, isSeparator c = false) (hr : word r = []) (n : Nat) :
    fieldsUpTo (n + 2) (w ++ r) = w :: fieldsUpTo (n + 1) (afterWord r) := by
  rw [fieldsUpTo_add_two n (List.append_ne_nil_of_left_ne_nil hne r), word_append hw,
    afterWord_append hw, hr, List.append_nil]

theorem isTrimmed_afterWord {t : Text} (h : IsTrimmed isSeparator t) :
    IsTrimmed isSeparator (afterWord t) := by
  constructor
  · intro c hc
    exact head?_dropWhile hc
  · intro c hc
    -- what is left over is an end of the text
    obtain ⟨s, hs⟩ := (List.dropWhile_suffix isSeparator).trans
      (List.dropWhile_suffix (!isSeparator ·) (l := t))
    apply h.2 c
    rw [← hs, List.getLast?_append]
    show (afterWord t).getLast?.or _ = some c
    rw [hc]
    rfl

/-- A trimmed text that has nothing after its first word is that word. -/
theorem word_eq_self {t : Text} (h : IsTrimmed isSeparator t) (ha : afterWord t = []) :
    word t = t := by
  have ht : word t ++ t.dropWhile (!isSeparator ·) = t := List.takeWhile_append_dropWhile
  cases hr : (t.dropWhile (!isSeparator ·)).getLast? with
  | none =>
    rw [List.getLast?_eq_none_iff.mp hr, List.append_nil] at ht
    exact ht
  | some c =>
    exfalso
    have hc : isSeparator c = false := by
      apply h.2 c
      rw [← ht, List.getLast?_append, hr]
      rfl
    have htake : (t.dropWhile (!isSeparator ·)).takeWhile isSeparator
        = t.dropWhile (!isSeparator ·) := by
      have hd : (t.dropWhile (!isSeparator ·)).dropWhile isSeparator = [] := ha
      have := List.takeWhile_append_dropWhile (p := isSeparator)
        (l := t.dropWhile (!isSeparator ·))
      rwa [hd, List.append_nil] at this
    have hmem : c ∈ (t.dropWhile (!isSeparator ·)).takeWhile isSeparator := by
      rw [htake]
      exact List.mem_of_getLast? hr
    have hall := List.all_eq_true.mp List.all_takeWhile c hmem
    rw [hc] at hall
    exact Bool.false_ne_true hall

theorem fields_ne_nil {t : Text} (h : IsTrimmed isSeparator t) (hne : t ≠ []) : fields t ≠ [] := by
  rw [fields_eq_cons h.1 hne]
  simp

end Ippcode.Text
