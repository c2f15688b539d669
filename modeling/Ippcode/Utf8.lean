import Ippcode.Text

/-!
# UTF-8

* `Bytes`            a byte string, as the list of its bytes;
* `encode t`         the UTF-8 form of a text: one to four bytes for each character;
* `size t`           its length, counted without writing it;
* `decode? bs`       the text whose UTF-8 form is `bs`, if there is one;
* `decodeLossy bs`   the same for every byte string, with U+FFFD in place of each ill-formed
                     stretch.  A stretch is a byte that starts no sequence, or the longest part
                     of a sequence that ends too early; the byte that cuts it short is read anew.

Bytes are read by a machine that takes one at a time.  Inside a sequence it keeps the bits read so
far, the number of bytes still owed, and the range in which the next byte has to lie.  The range is
narrower than `80`–`BF` only for the byte after `E0`, `ED`, `F0` or `F4`; this is what rules out
overlong forms, surrogates, and values above U+10FFFF, each at the first byte that gives it away.
-/

namespace Ippcode

abbrev Bytes := List UInt8

namespace Utf8

def encode (t : Text) : Bytes := t.flatMap String.utf8EncodeChar

theorem encode_nil : encode [] = [] := rfl
theorem encode_cons (c : Char) (t : Text) :
    encode (c :: t) = String.utf8EncodeChar c ++ encode t := rfl
theorem encode_append (a b : Text) : encode (a ++ b) = encode a ++ encode b := by
  simp [encode, List.flatMap_append]

/-- the number of bytes in the UTF-8 form of a text -/
def size (t : Text) : Nat := t.foldr (fun c n => c.utf8Size + n) 0

theorem size_nil : size [] = 0 := rfl
theorem size_cons (c : Char) (t : Text) : size (c :: t) = c.utf8Size + size t := rfl

theorem length_encode (t : Text) : (encode t).length = size t := by
  induction t with
  | nil => rfl
  | cons c t ih => simp [encode_cons, size_cons, ih, String.length_utf8EncodeChar]

/-! ## one byte -/

/-- a place inside a sequence -/
structure Unfinished where
  /-- the bits read so far -/
  bits : Nat
  /-- the number of bytes still owed -/
  owed : Nat
  /-- the least byte that may come next -/
  low : Nat
  /-- the greatest byte that may come next -/
  high : Nat
deriving DecidableEq, Repr

/-- what a byte brings about -/
inductive Reading where
  | whole (c : Char)
  | unfinished (u : Unfinished)
  | illFormed
deriving DecidableEq, Repr

/-- the first byte of a sequence -/
def first (b : Nat) : Reading :=
  if b ≤ 0x7F then .whole (Char.ofNat b)
  else if 0xC2 ≤ b ∧ b ≤ 0xDF then .unfinished ⟨b - 0xC0, 1, 0x80, 0xBF⟩
  else if b = 0xE0 then .unfinished ⟨0, 2, 0xA0, 0xBF⟩
  else if b = 0xED then .unfinished ⟨0xD, 2, 0x80, 0x9F⟩
  else if 0xE1 ≤ b ∧ b ≤ 0xEF then .unfinished ⟨b - 0xE0, 2, 0x80, 0xBF⟩
  else if b = 0xF0 then .unfinished ⟨0, 3, 0x90, 0xBF⟩
  else if b = 0xF4 then .unfinished ⟨4, 3, 0x80, 0x8F⟩
  else if 0xF1 ≤ b ∧ b ≤ 0xF3 then .unfinished ⟨b - 0xF0, 3, 0x80, 0xBF⟩
  else .illFormed

/-- a byte inside a sequence -/
def Unfinished.next (u : Unfinished) (b : Nat) : Reading :=
  if u.low ≤ b ∧ b ≤ u.high then
    if u.owed ≤ 1 then .whole (Char.ofNat (u.bits * 64 + (b - 0x80)))
    else .unfinished ⟨u.bits * 64 + (b - 0x80), u.owed - 1, 0x80, 0xBF⟩
  else .illFormed

/-! ## the machine -/

/-- what has been read: whole characters, the newest first, and maybe a part of another one -/
structure Decoder where
  text : Text
  unfinished : Option Unfinished
deriving DecidableEq, Repr

def Decoder.start : Decoder := ⟨[], none⟩

def Decoder.read (d : Decoder) (b : UInt8) : Reading :=
  match d.unfinished with
  | none => first b.toNat
  | some u => u.next b.toNat

/-- The machine after a byte; none where UTF-8 cannot go on with that byte. -/
def Decoder.take? (d : Decoder) (b : UInt8) : Option Decoder :=
  match d.read b with
  | .whole c => some ⟨c :: d.text, none⟩
  | .unfinished u => some ⟨d.text, some u⟩
  | .illFormed => none

/-- the text, unless it breaks off inside a character -/
def Decoder.finish? (d : Decoder) : Option Text :=
  match d.unfinished with
  | none => some d.text.reverse
  | some _ => none

def decode? (bs : Bytes) : Option Text :=
  (bs.foldlM Decoder.take? Decoder.start).bind Decoder.finish?

theorem decode?_nil : decode? [] = some [] := rfl

/-! ## every byte string -/

/-- the character that stands for an ill-formed stretch -/
def replacement : Char := '\uFFFD'

/-- an ill-formed stretch ends here -/
def Decoder.replace (d : Decoder) : Decoder := ⟨replacement :: d.text, none⟩

/-- The machine after any byte.  A byte that cuts a sequence short is read anew. -/
def Decoder.takeLossy (d : Decoder) (b : UInt8) : Decoder :=
  match d.take? b, d.unfinished with
  | some d', _ => d'
  | none, none => d.replace
  | none, some _ => (d.replace.take? b).getD d.replace.replace

def Decoder.finishLossy (d : Decoder) : Text :=
  match d.unfinished with
  | none => d.text.reverse
  | some _ => d.replace.text.reverse

def decodeLossy (bs : Bytes) : Text :=
  (bs.foldl Decoder.takeLossy Decoder.start).finishLossy

theorem decodeLossy_nil : decodeLossy [] = [] := rfl

/-- on well-formed bytes nothing is replaced -/
theorem decodeLossy_of_decode? {bs : Bytes} {t : Text} (h : decode? bs = some t) :
    decodeLossy bs = t := by
  have run : ∀ (bs : Bytes) (d e : Decoder), bs.foldlM Decoder.take? d = some e →
      bs.foldl Decoder.takeLossy d = e := by
    intro bs
    induction bs with
    | nil => intro d e h; simpa using h
    | cons b bs ih =>
      intro d e h
      rw [List.foldlM_cons] at h
      obtain ⟨d', hd, he⟩ := Option.bind_eq_some_iff.mp h
      rw [List.foldl_cons, show d.takeLossy b = d' by simp [Decoder.takeLossy, hd]]
      exact ih d' e he
  obtain ⟨e, he, ht⟩ := Option.bind_eq_some_iff.mp h
  unfold decodeLossy
  rw [run _ _ _ he]
  unfold Decoder.finish? at ht
  unfold Decoder.finishLossy
  split at ht
  · next hu => simpa [hu] using ht
  · simp at ht

end Utf8

end Ippcode
