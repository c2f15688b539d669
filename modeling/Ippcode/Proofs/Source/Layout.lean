import Mathlib.Data.List.Forall2
import Mathlib.Logic.Relation
import Ippcode.Proofs.Source.Code
import Ippcode.Proofs.Utf8.Cut

/-!
# The layout of a source

What can be done to a line without doing anything to its code.

* `Edit l l'`        separators at the start of the line `l`, separators or a comment before its
                     end, or the line feed that it lacks;
* `Relaid bs bs'`    any such edits of any lines of `bs`;
* `lineCode? l`      the code on a line, if the line is a text; no edit changes it
                     (`Edit.lineCode?_eq`), and none makes a text of what is no text;
* `AreLines.relaid`  lines that are edited are still the lines of their source.
-/

namespace Ippcode.Source

open Text Utf8

/-! ## edits -/

/-- separators that stay on their line -/
def IsPadding (s : Text) : Prop := ∀ c ∈ s, isSeparator c = true ∧ c ≠ '\n'

instance (s : Text) : Decidable (IsPadding s) :=
  inferInstanceAs (Decidable (∀ c ∈ s, isSeparator c = true ∧ c ≠ '\n'))

/-- what may stand between the code of a line and its line feed -/
def IsTrailer (e : Text) : Prop := IsPadding e ∨ ∃ t, '\n' ∉ t ∧ e = commentMark :: t

/-- the end of a line, which the last line may lack -/
def IsStop (stop : Bytes) : Prop := stop = [] ∨ stop = [lineFeed]

inductive Edit : Bytes → Bytes → Prop where
  | indent {s : Text} {l : Bytes} : IsPadding s → Edit l (encode s ++ l)
  | trail {e : Text} {l stop : Bytes} : lineFeed ∉ l → IsStop stop → IsTrailer e →
      Edit (l ++ stop) (l ++ encode e ++ stop)
  | finish {l : Bytes} : lineFeed ∉ l → Edit l (l ++ [lineFeed])

/-- `bs'` is `bs` with any edits of any of its lines -/
def Relaid (bs bs' : Bytes) : Prop :=
  ∃ ls ls', AreLines bs ls ∧ List.Forall₂ (Relation.ReflTransGen Edit) ls ls' ∧ bs' = ls'.flatten

/-! ## the code of an edited line -/

def lineCode? (raw : Bytes) : Option Text := (decode? raw).map code

theorem isAscii_of_isSeparator {c : Char} (h : isSeparator c = true) : IsAscii c := by
  have hall : ∀ d ∈ [' ', '\t', '\n', '\x0b', '\x0c', '\r'], IsAscii d := by decide
  exact hall c (isSeparator_iff.mp h)

theorem lineCode?_encode_append {s : Text} (hs : ∀ c ∈ s, isSeparator c = true) (l : Bytes) :
    lineCode? (encode s ++ l) = lineCode? l := by
  have hcode : code ∘ (fun t => s ++ t) = code := by
    funext t
    exact code_separators_append hs t
  rw [lineCode?, decode?_encode_append, Option.map_map, hcode, lineCode?]

/-- what is put behind begins with an ASCII character and is no code -/
theorem lineCode?_append_encode {e : Text} (ha : ∀ c, e.head? = some c → IsAscii c)
    (hc : ∀ t, code (t ++ e) = code t) (l : Bytes) : lineCode? (l ++ encode e) = lineCode? l := by
  have hcode : code ∘ (fun t => t ++ e) = code := by
    funext t
    exact hc t
  rw [lineCode?, decode?_append_encode l ha, Option.map_map, hcode, lineCode?]

theorem lineCode?_append_trailer {e : Text} (h : IsTrailer e) (l : Bytes) :
    lineCode? (l ++ encode e) = lineCode? l := by
  rcases h with h | ⟨t, -, rfl⟩
  · apply lineCode?_append_encode
    · intro c hc
      exact isAscii_of_isSeparator (h c (List.mem_of_head? hc)).1
    · exact code_append_separators fun c hc => (h c hc).1
  · apply lineCode?_append_encode
    · intro c hc
      obtain rfl : commentMark = c := Option.some.inj hc
      decide
    · exact fun u => code_append_comment u t

theorem lineCode?_append_lineFeed (l : Bytes) : lineCode? (l ++ [lineFeed]) = lineCode? l := by
  rw [← encode_lineFeed]
  apply lineCode?_append_encode
  · intro c hc
    obtain rfl : '\n' = c := Option.some.inj hc
    decide
  · exact code_append_separators (by decide)

theorem lineCode?_append_stop {stop : Bytes} (h : IsStop stop) (l : Bytes) :
    lineCode? (l ++ stop) = lineCode? l := by
  rcases h with rfl | rfl
  · rw [List.append_nil]
  · exact lineCode?_append_lineFeed l

/-- **An edit leaves the code of a line as it is.** -/
theorem Edit.lineCode?_eq {l l' : Bytes} (h : Edit l l') : lineCode? l' = lineCode? l := by
  cases h with
  | indent hs => exact lineCode?_encode_append (fun c hc => (hs c hc).1) l
  | trail _ hstop he =>
    rw [lineCode?_append_stop hstop, lineCode?_append_trailer he, lineCode?_append_stop hstop]
  | finish => exact lineCode?_append_lineFeed l

theorem lineCode?_eq_of_edits {l l' : Bytes} (h : Relation.ReflTransGen Edit l l') :
    lineCode? l' = lineCode? l := by
  induction h with
  | refl => rfl
  | tail _ he ih => rw [he.lineCode?_eq, ih]

/-! ## edited lines are lines -/

/-- a line with its line feed -/
def IsEnded (l : Bytes) : Prop := ∃ u, lineFeed ∉ u ∧ l = u ++ [lineFeed]

/-- a line without -/
def IsUnended (l : Bytes) : Prop := l ≠ [] ∧ lineFeed ∉ l

theorem lineFeed_notMem_padding {s : Text} (h : IsPadding s) : lineFeed ∉ encode s := by
  rw [lineFeed_mem_encode_iff]
  exact fun hm => (h _ hm).2 rfl

theorem lineFeed_notMem_trailer {e : Text} (h : IsTrailer e) : lineFeed ∉ encode e := by
  rcases h with h | ⟨t, ht, rfl⟩
  · exact lineFeed_notMem_padding h
  · rw [lineFeed_mem_encode_iff, List.mem_cons, not_or]
    exact ⟨by decide, ht⟩

theorem IsEnded.lineFeed_mem {l : Bytes} (h : IsEnded l) : lineFeed ∈ l := by
  obtain ⟨u, -, rfl⟩ := h
  simp

theorem Edit.isEnded {l l' : Bytes} (h : Edit l l') (hl : IsEnded l) : IsEnded l' := by
  cases h with
  | @indent s l hs =>
    obtain ⟨u, hu, rfl⟩ := hl
    have hn := List.not_mem_append (lineFeed_notMem_padding hs) hu
    exact ⟨encode s ++ u, hn, (List.append_assoc ..).symm⟩
  | @trail e u stop hu hstop he =>
    rcases hstop with rfl | rfl
    · have hmem := hl.lineFeed_mem
      rw [List.append_nil] at hmem
      exact absurd hmem hu
    · exact ⟨u ++ encode e, List.not_mem_append hu (lineFeed_notMem_trailer he), rfl⟩
  | finish hn => exact absurd hl.lineFeed_mem hn

theorem Edit.isUnended_or_isEnded {l l' : Bytes} (h : Edit l l') (hl : IsUnended l) :
    IsUnended l' ∨ IsEnded l' := by
  obtain ⟨hne, hn⟩ := hl
  cases h with
  | indent hs =>
    have hn' := List.not_mem_append (lineFeed_notMem_padding hs) hn
    exact .inl ⟨List.append_ne_nil_of_right_ne_nil _ hne, hn'⟩
  | @trail e u stop hu hstop he =>
    rcases hstop with rfl | rfl
    · rw [List.append_nil] at hne ⊢
      have hn' := List.not_mem_append hu (lineFeed_notMem_trailer he)
      exact .inl ⟨List.append_ne_nil_of_left_ne_nil hne _, hn'⟩
    · exact absurd (List.mem_append_right u (List.mem_singleton_self _)) hn
  | finish => exact .inr ⟨l, hn, rfl⟩

theorem isEnded_of_edits {l l' : Bytes} (h : Relation.ReflTransGen Edit l l') (hl : IsEnded l) :
    IsEnded l' := by
  induction h with
  | refl => exact hl
  | tail _ he ih => exact he.isEnded ih

theorem isUnended_or_isEnded_of_edits {l l' : Bytes} (h : Relation.ReflTransGen Edit l l')
    (hl : IsUnended l) : IsUnended l' ∨ IsEnded l' := by
  induction h with
  | refl => exact .inl hl
  | tail _ he ih => exact ih.elim he.isUnended_or_isEnded fun hend => .inr (he.isEnded hend)

/-- Lines that are changed one by one, and keep their ends, are the lines of what they make
together. -/
theorem AreLines.of_forall₂ {R : Bytes → Bytes → Prop}
    (hended : ∀ {l l' : Bytes}, R l l' → IsEnded l → IsEnded l')
    (hunended : ∀ {l l' : Bytes}, R l l' → IsUnended l → IsUnended l' ∨ IsEnded l')
    {bs : Bytes} {ls ls' : List Bytes} (h : AreLines bs ls) (hR : List.Forall₂ R ls ls') :
    AreLines ls'.flatten ls' := by
  induction h generalizing ls' with
  | nil =>
    obtain rfl := List.forall₂_nil_left_iff.mp hR
    exact .nil
  | unended hne hn =>
    -- the last line may have got its line feed
    obtain ⟨l', ls', hl, hnil, rfl⟩ := List.forall₂_cons_left_iff.mp hR
    obtain rfl := List.forall₂_nil_left_iff.mp hnil
    rcases hunended hl ⟨hne, hn⟩ with ⟨hne', hn'⟩ | ⟨u, hu, rfl⟩
    · rw [List.flatten_cons, List.flatten_nil, List.append_nil]
      exact .unended hne' hn'
    · rw [List.flatten_cons, List.append_assoc]
      exact .ended hu .nil
  | ended hn _ ih =>
    obtain ⟨l', ls', hl, hls, rfl⟩ := List.forall₂_cons_left_iff.mp hR
    obtain ⟨u, hu, rfl⟩ := hended hl ⟨_, hn, rfl⟩
    rw [List.flatten_cons, List.append_assoc]
    exact .ended hu (ih hls)

/-- **Edited lines are the lines of what they make together.** -/
theorem AreLines.relaid {bs : Bytes} {ls ls' : List Bytes} (h : AreLines bs ls)
    (he : List.Forall₂ (Relation.ReflTransGen Edit) ls ls') : AreLines ls'.flatten ls' :=
  h.of_forall₂ isEnded_of_edits isUnended_or_isEnded_of_edits he

end Ippcode.Source
