import Ippcode.Text

/-!
# XML

* `startTag`, `emptyTag`, `endTag`   `<name a="v">`, `<name a="v"/>` and `</name>`;
* `escape t`       character data: the five characters with a meaning of their own in XML are
                   written as entity references, and all others stand for themselves.  Most texts
                   have none of the five, and `escape` gives those back as they are; that makes no
                   difference (`escape_eq_flatMap`);
* `unescape? t`    reads character data back, from the left: each `&` has to begin one of the five
                   references, and no other special character may stand in the data.  It reads
                   exactly what `escape` writes (`unescape?_eq_some_iff`).
-/

namespace Ippcode.Xml

/-! ## tags

Attribute values are written as they are: names and values are the writer's own words, and hold no
quote, ampersand or angle bracket. -/

def attributes (as : List (Text × Text)) : Text :=
  as.flatMap fun a => ' ' :: (a.1 ++ '=' :: '"' :: (a.2 ++ ['"']))

theorem attributes_nil : attributes [] = [] := rfl
theorem attributes_cons (n v : Text) (as : List (Text × Text)) :
    attributes ((n, v) :: as) = ' ' :: (n ++ '=' :: '"' :: (v ++ '"' :: attributes as)) := by
  simp [attributes]

def startTag (name : Text) (as : List (Text × Text)) : Text :=
  '<' :: (name ++ attributes as ++ ['>'])

def emptyTag (name : Text) (as : List (Text × Text)) : Text :=
  '<' :: (name ++ attributes as ++ ['/', '>'])

def endTag (name : Text) : Text := '<' :: '/' :: (name ++ ['>'])

/-! ## character data -/

def escapeChar : Char → Text
  | '&' => ['&', 'a', 'm', 'p', ';']
  | '<' => ['&', 'l', 't', ';']
  | '>' => ['&', 'g', 't', ';']
  | '"' => ['&', 'q', 'u', 'o', 't', ';']
  | '\'' => ['&', 'a', 'p', 'o', 's', ';']
  | c => [c]

/-- a character that has to be escaped -/
def isSpecial (c : Char) : Bool := ['&', '<', '>', '"', '\''].contains c

theorem isSpecial_iff {c : Char} :
    isSpecial c = true ↔ c = '&' ∨ c = '<' ∨ c = '>' ∨ c = '"' ∨ c = '\'' := by
  simp [isSpecial]

theorem escapeChar_of_not_special {c : Char} (h : isSpecial c = false) : escapeChar c = [c] := by
  simp [isSpecial] at h
  unfold escapeChar
  split <;> simp_all

/-! ## texts -/

def escape (t : Text) : Text := if t.any isSpecial then t.flatMap escapeChar else t

theorem flatMap_escapeChar_of_plain {t : Text} (h : ∀ c ∈ t, isSpecial c = false) :
    t.flatMap escapeChar = t := by
  induction t with
  | nil => rfl
  | cons c t ih =>
    rw [List.forall_mem_cons] at h
    rw [List.flatMap_cons, escapeChar_of_not_special h.1, ih h.2, List.singleton_append]

theorem escape_eq_flatMap (t : Text) : escape t = t.flatMap escapeChar := by
  unfold escape
  split
  · rfl
  · next h =>
    refine (flatMap_escapeChar_of_plain fun c hc => ?_).symm
    rw [Bool.not_eq_true, List.any_eq_false] at h
    exact eq_false_of_ne_true (h c hc)

theorem escape_of_plain {t : Text} (h : ∀ c ∈ t, isSpecial c = false) : escape t = t := by
  rw [escape_eq_flatMap, flatMap_escapeChar_of_plain h]

theorem escape_nil : escape [] = [] := rfl
theorem escape_cons (c : Char) (t : Text) : escape (c :: t) = escapeChar c ++ escape t := by
  rw [escape_eq_flatMap, escape_eq_flatMap, List.flatMap_cons]
theorem escape_append (a b : Text) : escape (a ++ b) = escape a ++ escape b := by
  rw [escape_eq_flatMap, escape_eq_flatMap, escape_eq_flatMap, List.flatMap_append]

/-! ## character data read back -/

def unescape? : Text → Option Text
  | [] => some []
  | '&' :: 'a' :: 'm' :: 'p' :: ';' :: t => (unescape? t).map ('&' :: ·)
  | '&' :: 'l' :: 't' :: ';' :: t => (unescape? t).map ('<' :: ·)
  | '&' :: 'g' :: 't' :: ';' :: t => (unescape? t).map ('>' :: ·)
  | '&' :: 'q' :: 'u' :: 'o' :: 't' :: ';' :: t => (unescape? t).map ('"' :: ·)
  | '&' :: 'a' :: 'p' :: 'o' :: 's' :: ';' :: t => (unescape? t).map ('\'' :: ·)
  | c :: t => if isSpecial c then none else (unescape? t).map (c :: ·)

theorem unescape?_nil : unescape? [] = some [] := by
  unfold unescape?; rfl

theorem unescape?_cons {c : Char} (h : isSpecial c = false) (t : Text) :
    unescape? (c :: t) = (unescape? t).map (c :: ·) := by
  have hc : c ≠ '&' := by rintro rfl; simp [isSpecial] at h
  rw [unescape?]
  · rw [if_neg (by simp [h])]
  all_goals
    intros
    exact absurd ‹c = '&'› hc

/-- one character is read back, whatever follows -/
theorem unescape?_escapeChar_append (c : Char) (t : Text) :
    unescape? (escapeChar c ++ t) = (unescape? t).map (c :: ·) := by
  by_cases h : isSpecial c = false
  · rw [escapeChar_of_not_special h]
    exact unescape?_cons h t
  · rcases isSpecial_iff.mp (by simpa using h) with rfl | rfl | rfl | rfl | rfl
    all_goals
      simp only [escapeChar, List.cons_append, List.nil_append]
      rw [unescape?]

theorem unescape?_escape (t : Text) : unescape? (escape t) = some t := by
  induction t with
  | nil => exact unescape?_nil
  | cons c t ih => rw [escape_cons, unescape?_escapeChar_append, ih, Option.map_some]

theorem escape_of_unescape? {s t : Text} (h : unescape? s = some t) : escape t = s := by
  fun_induction unescape? s generalizing t with
  | case1 => obtain rfl := Option.some.inj h; rfl
  | case2 s ih | case3 s ih | case4 s ih | case5 s ih | case6 s ih =>
    obtain ⟨u, hu, rfl⟩ := Option.map_eq_some_iff.mp h
    rw [escape_cons, ih hu]
    rfl
  | case7 => simp at h
  | case8 c s _ _ _ _ _ hc ih =>
    obtain ⟨u, hu, rfl⟩ := Option.map_eq_some_iff.mp h
    rw [escape_cons, ih hu, escapeChar_of_not_special (by simpa using hc)]
    rfl

theorem unescape?_eq_some_iff {s t : Text} : unescape? s = some t ↔ s = escape t :=
  ⟨fun h => (escape_of_unescape? h).symm, fun h => h ▸ unescape?_escape t⟩

end Ippcode.Xml
