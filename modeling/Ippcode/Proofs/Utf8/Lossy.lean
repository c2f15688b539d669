import Ippcode.Proofs.Utf8.Exact
import Mathlib.Data.List.Induction

/-!
# What a reading with replacements begins with

Bytes that are no text are read with U+FFFD in their place.  This character apart, a reading begins
with a character only where the bytes begin with its form (`head?_decodeLossy`), so that nothing is
read in front that does not stand there.

`Begins p d` is what holds of the machine `d` after the bytes `p`: it has read a first character, or
is inside the first sequence of `p`, or `p` is empty.
-/

namespace Ippcode.Utf8

/-- The machine `d` has come through the bytes `p`, from the start. -/
inductive Begins (p : Bytes) (d : Decoder) : Prop where
  | start : p = [] → d = .start → Begins p d
  | inside {a : UInt8} {q : Bytes} {u : Unfinished} : p = a :: q → d = ⟨[], some u⟩ →
      (∀ tail c, Completes u tail c → Starts a (q ++ tail) c) → Begins p d
  | first {c : Char} {t : Text} : d.text = t ++ [c] →
      (c = replacement ∨ String.utf8EncodeChar c <+: p) → Begins p d

section

variable {p : Bytes} {d e : Decoder} {b : UInt8}

/-- Characters are put in front of those that have been read. -/
theorem Begins.of_text {c : Char} {t s : Text} (ht : d.text = t ++ [c])
    (hc : c = replacement ∨ String.utf8EncodeChar c <+: p) (he : e.text = s ++ d.text)
    (b : UInt8) : Begins (p ++ [b]) e := by
  refine .first (t := s ++ t) ?_ (hc.imp_right fun h => h.trans (List.prefix_append p [b]))
  rw [he, ht, List.append_assoc]

theorem text_of_take? (h : d.take? b = some e) : ∃ s, e.text = s ++ d.text := by
  unfold Decoder.take? at h
  split at h
  · next c _ =>
    obtain rfl := Option.some.inj h
    exact ⟨[c], rfl⟩
  · obtain rfl := Option.some.inj h
    exact ⟨[], rfl⟩
  · cases h

theorem text_replace (d : Decoder) : d.replace.text = [replacement] ++ d.text := rfl

/-- a byte that goes on with what has been read -/
theorem Begins.take? (h : Begins p d) (hb : d.take? b = some e) : Begins (p ++ [b]) e := by
  cases h with
  | first ht hc =>
    obtain ⟨s, hs⟩ := text_of_take? hb
    exact .of_text ht hc hs b
  | start hp hd =>
    subst hp hd
    unfold Decoder.take? at hb
    split at hb
    · next c hread =>
      obtain rfl := Option.some.inj hb
      have hform := starts_iff.mp (.inl ⟨hread, rfl⟩ : Starts b [] c)
      exact .first (t := []) rfl (.inr (by rw [hform]; exact List.prefix_refl _))
    · next u hread =>
      obtain rfl := Option.some.inj hb
      exact .inside rfl rfl fun tail c hc => .inr ⟨u, hread, hc⟩
    · cases hb
  | @inside a q u hp hd hstarts =>
    subst hp hd
    unfold Decoder.take? at hb
    split at hb
    · next c hread =>
      obtain rfl := Option.some.inj hb
      have hform := starts_iff.mp (hstarts [b] c (.whole hread))
      exact .first (t := []) rfl (.inr (by rw [hform]; exact List.prefix_refl _))
    · next v hread =>
      obtain rfl := Option.some.inj hb
      refine .inside (q := q ++ [b]) rfl rfl fun tail c hc => ?_
      rw [List.append_assoc]
      exact hstarts (b :: tail) c (.more hread hc)
    · cases hb

/-- a byte that rules out what has been read -/
theorem Begins.of_replaced (h : Begins p d) {s : Text} (he : e.text = s ++ d.replace.text)
    (b : UInt8) : Begins (p ++ [b]) e := by
  rw [text_replace] at he
  cases h with
  | first ht hc => exact .of_text ht hc (s := s ++ [replacement]) (by rw [he, List.append_assoc]) b
  | start _ hd | inside _ hd =>
    subst hd
    exact .first he (.inl rfl)

theorem Begins.takeLossy (h : Begins p d) (b : UInt8) : Begins (p ++ [b]) (d.takeLossy b) := by
  unfold Decoder.takeLossy
  split
  · next e _ hb => exact h.take? hb
  · exact h.of_replaced (s := []) rfl b
  · cases hb : d.replace.take? b with
    | none => exact h.of_replaced (s := [replacement]) rfl b
    | some e =>
      obtain ⟨s, hs⟩ := text_of_take? hb
      exact h.of_replaced hs b

theorem begins_foldl (bs : Bytes) : Begins bs (bs.foldl Decoder.takeLossy Decoder.start) := by
  induction bs using List.reverseRecOn with
  | nil => exact .start rfl rfl
  | append_singleton bs b ih =>
    rw [List.foldl_append]
    exact ih.takeLossy b

end

/-- **A reading begins with a replacement, or with what the bytes begin with.** -/
theorem head?_decodeLossy {bs : Bytes} {c : Char} (h : (decodeLossy bs).head? = some c) :
    c = replacement ∨ String.utf8EncodeChar c <+: bs := by
  have hbegins := begins_foldl bs
  unfold decodeLossy at h
  cases hbegins with
  | start _ hd =>
    rw [hd] at h
    cases h
  | inside _ hd =>
    rw [hd] at h
    exact .inl (Option.some.inj h).symm
  | @first e t ht hc =>
    have hhead : (bs.foldl Decoder.takeLossy Decoder.start).finishLossy.head? = some e := by
      unfold Decoder.finishLossy
      split
      · rw [List.head?_reverse, ht, List.getLast?_concat]
      · rw [List.head?_reverse, text_replace, ht, ← List.append_assoc, List.getLast?_concat]
    rw [hhead] at h
    rwa [← Option.some.inj h]

end Ippcode.Utf8
