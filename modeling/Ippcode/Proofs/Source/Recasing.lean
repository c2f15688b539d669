import Ippcode.Proofs.Analysis.Lines
import Ippcode.Proofs.Source.Layout

/-!
# A source in other letters

The first code of a source, and the first word of any later code, may be written in another letter
case.

* `Recased w l l'`        the line `l` begins, after separators, with `w`, and `l'` has it in another
                          letter case;
* `RecasedSource bs bs'`  `bs` with its first code, and the opcodes after it, so changed on any
                          lines;
* `Varied R l l'`         the same line, or a text that `R` relates to the one on it;
* `code_append`           what follows a word on its line is code whatever the word is, so that
                          the code changes in nothing else (`RecasedCode.codeRecased`), and the
                          operands not at all (`RecasedOpcode.opcodeRecased`);
* `RecasedSource.lines`   no line begins or ends elsewhere.
-/

namespace Ippcode.Source

open Text Utf8

/-! ## recased lines -/

/-- The line `l` has the text `w` after its first separators; `l'` has it in another letter case. -/
def Recased (w : Text) (l l' : Bytes) : Prop :=
  ∃ a b w', (∀ c ∈ a, isSeparator c = true) ∧ w.sameUpToCase w' = true ∧
    l = encode (a ++ w ++ b) ∧ l' = encode (a ++ w' ++ b)

/-- the whole code of a line, in another letter case -/
def RecasedCode (l l' : Bytes) : Prop :=
  l' = l ∨ ∃ t, l = encode t ∧ code t ≠ [] ∧ Recased (code t) l l'

/-- the first word of the code of a line, in another letter case -/
def RecasedOpcode (l l' : Bytes) : Prop :=
  l' = l ∨ ∃ t opcode operands, l = encode t ∧ fields (code t) = opcode :: operands ∧
    Recased opcode l l'

/-- the first line with code has other code, and the lines after it have other opcodes -/
inductive RecasedLines : List Bytes → List Bytes → Prop where
  | nil : RecasedLines [] []
  | skip {l : Bytes} {ls ls' : List Bytes} : ¬ HasCode l → RecasedLines ls ls' →
      RecasedLines (l :: ls) (l :: ls')
  | first {l l' : Bytes} {ls ls' : List Bytes} : HasCode l → RecasedCode l l' →
      List.Forall₂ RecasedOpcode ls ls' → RecasedLines (l :: ls) (l' :: ls')

def RecasedSource (bs bs' : Bytes) : Prop :=
  ∃ ls ls', AreLines bs ls ∧ RecasedLines ls ls' ∧ bs' = ls'.flatten

/-! ## the code after a word -/

/-- what is code of a text that follows a word -/
def codeAfter (b : Text) : Text :=
  ((b.takeWhile (· ≠ commentMark)).reverse.dropWhile isSeparator).reverse

/-- **What follows a word is code or not whatever the word is.** -/
theorem code_append {a w : Text} (ha : ∀ c ∈ a, isSeparator c = true) (hne : w ≠ [])
    (hw : IsTrimmed isSeparator w) (hn : commentMark ∉ w) (b : Text) :
    code (a ++ w ++ b) = w ++ codeAfter b := by
  have hhead : ∀ c, (w ++ b.takeWhile (· ≠ commentMark)).head? = some c → isSeparator c = false := by
    intro c hc
    obtain ⟨d, w, rfl⟩ := List.exists_cons_of_ne_nil hne
    exact hw.1 c hc
  have hlast : ∀ c, w.reverse.head? = some c → isSeparator c = false := by
    intro c hc
    rw [List.head?_reverse] at hc
    exact hw.2 c hc
  rw [List.append_assoc, code_separators_append ha, code, takeWhile_append hn, trim, dropWhile_eq_self hhead,
    List.reverse_append, List.dropWhile_append, codeAfter]
  split
  · next hnil =>
    rw [List.isEmpty_iff.mp hnil, dropWhile_eq_self hlast, List.reverse_reverse, List.reverse_nil,
      List.append_nil]
  · rw [List.reverse_append, List.reverse_reverse]

/-! ## varied lines -/

/-- the same line, or a text that `R` relates to the one on the line -/
def Varied (R : Text → Text → Prop) (l l' : Bytes) : Prop :=
  l' = l ∨ ∃ t t', l = encode t ∧ l' = encode t' ∧ R t t'

theorem Varied.imp {R S : Text → Text → Prop} (hRS : ∀ t t', R t t' → S t t') {l l' : Bytes}
    (h : Varied R l l') : Varied S l l' := by
  rcases h with rfl | ⟨t, t', ht, ht', hR⟩
  · exact .inl rfl
  · exact .inr ⟨t, t', ht, ht', hRS t t' hR⟩

/-- code in another letter case -/
def CodeRecased (t t' : Text) : Prop := (code t).sameUpToCase (code t') = true

/-- the same words but for the letter case of the first one -/
def OpcodeRecased (t t' : Text) : Prop :=
  ∃ opcode opcode' operands, opcode.sameUpToCase opcode' = true ∧
    fieldsUpTo Statement.maxFields (code t) = opcode :: operands ∧
      fieldsUpTo Statement.maxFields (code t') = opcode' :: operands

theorem CodeRecased.chomp {t t' : Text} (h : CodeRecased t t') :
    CodeRecased (Source.chomp t) (Source.chomp t') := by
  unfold CodeRecased
  rwa [code_chomp, code_chomp]

theorem OpcodeRecased.chomp {t t' : Text} (h : OpcodeRecased t t') :
    OpcodeRecased (Source.chomp t) (Source.chomp t') := by
  unfold OpcodeRecased
  rwa [code_chomp, code_chomp]

theorem commentMark_isCaseless : IsCaseless commentMark := by decide

section

variable {w : Text} {l l' : Bytes}

/-- A trimmed word without comment is followed by the same code in every letter case. -/
theorem Recased.exists_code (h : Recased w l l') (hne : w ≠ []) (hw : IsTrimmed isSeparator w)
    (hn : commentMark ∉ w) : ∃ t t' w' r, l = encode t ∧ l' = encode t' ∧
      w.sameUpToCase w' = true ∧ code t = w ++ r ∧ code t' = w' ++ r := by
  obtain ⟨a, b, w', ha, hsame, rfl, rfl⟩ := h
  refine ⟨_, _, w', codeAfter b, rfl, rfl, hsame, code_append ha hne hw hn b, ?_⟩
  apply code_append ha
  · rwa [Ne, ← eq_nil_iff_of_sameUpToCase hsame]
  · rwa [← isTrimmed_iff_of_sameUpToCase hsame]
  · rwa [← mem_iff_of_sameUpToCase hsame commentMark_isCaseless]

theorem RecasedCode.codeRecased (h : RecasedCode l l') : Varied CodeRecased l l' := by
  rcases h with rfl | ⟨u, rfl, hu, h⟩
  · exact .inl rfl
  · obtain ⟨t, t', w', r, hl, rfl, hsame, hc, hc'⟩ :=
      h.exists_code hu (isTrimmed_code u) (commentMark_notMem_code u)
    obtain rfl := encode_injective hl
    -- the word is all the code there is, so that nothing follows it
    obtain rfl : r = [] := by simpa using hc
    refine .inr ⟨_, t', rfl, rfl, ?_⟩
    unfold CodeRecased
    rwa [hc', List.append_nil]

theorem RecasedOpcode.recased (h : RecasedOpcode l l') :
    Varied (fun t t' => CodeRecased t t' ∧ OpcodeRecased t t') l l' := by
  rcases h with rfl | ⟨u, opcode, operands, rfl, hu, h⟩
  · exact .inl rfl
  · have hcode : code u ≠ [] := by
      intro hnil
      rw [hnil, fields_nil] at hu
      cases hu
    have hfirst : word (code u) = opcode := by
      rw [fields_eq_cons (isTrimmed_code u).1 hcode] at hu
      exact (List.cons.inj hu).1
    have hword : IsWord opcode := hfirst ▸ isWord_word (isTrimmed_code u).1 hcode
    have hmark : commentMark ∉ opcode := by
      intro hm
      rw [← hfirst] at hm
      exact commentMark_notMem_code u ((List.takeWhile_prefix _).subset hm)
    obtain ⟨t, t', opcode', r, hl, rfl, hsame, hc, hc'⟩ :=
      h.exists_code hword.1 (isTrimmed_of_forall hword.2) hmark
    obtain rfl := encode_injective hl
    have hne' : opcode' ≠ [] := (eq_nil_iff_of_sameUpToCase hsame).not.mp hword.1
    have hword' := (separatorFree_iff_of_sameUpToCase hsame).mp hword.2
    -- the word ends where the first field ends
    have hr : word r = [] := by
      rw [hc, word_append hword.2] at hfirst
      simpa using hfirst
    refine .inr ⟨_, t', rfl, rfl, ?_, opcode, opcode', fieldsUpTo 3 (afterWord r), hsame, ?_, ?_⟩
    · unfold CodeRecased
      rw [hc, hc']
      exact sameUpToCase_append hsame (sameUpToCase_refl r)
    · rw [hc, Statement.maxFields, fieldsUpTo_word_append hword.1 hword.2 hr]
    · rw [hc', Statement.maxFields, fieldsUpTo_word_append hne' hword' hr]

theorem RecasedOpcode.codeRecased (h : RecasedOpcode l l') : Varied CodeRecased l l' :=
  h.recased.imp fun _ _ h => h.1

theorem RecasedOpcode.opcodeRecased (h : RecasedOpcode l l') : Varied OpcodeRecased l l' :=
  h.recased.imp fun _ _ h => h.2

end

/-! ## recased lines are lines -/

theorem isEnded_encode_iff {t : Text} :
    IsEnded (encode t) ↔ ∃ u, '\n' ∉ u ∧ t = u ++ ['\n'] := by
  refine ⟨?_, ?_⟩
  · intro h
    obtain ⟨raw, hn, hraw⟩ := h
    obtain ⟨u, v, rfl, rfl, hv⟩ := exists_cut (by decide) hraw.symm
    obtain rfl := encode_injective (s := []) hv
    exact ⟨u, by rwa [← lineFeed_mem_encode_iff], rfl⟩
  · intro h
    obtain ⟨u, hn, rfl⟩ := h
    refine ⟨encode u, by rwa [lineFeed_mem_encode_iff], ?_⟩
    rw [encode_append, encode_lineFeed]

theorem isUnended_encode_iff {t : Text} : IsUnended (encode t) ↔ t ≠ [] ∧ '\n' ∉ t := by
  rw [IsUnended, lineFeed_mem_encode_iff, Ne, encode_eq_nil_iff]

theorem lineFeed_isCaseless : IsCaseless '\n' := by decide

/-- a text in other letters ends where the text does -/
theorem exists_concat_of_sameUpToCase {u t' : Text}
    (h : sameUpToCase (u ++ ['\n']) t' = true) :
    ∃ u', t' = u' ++ ['\n'] ∧ u.sameUpToCase u' = true := by
  rw [sameUpToCase_iff, lower_append] at h
  obtain ⟨u', v', rfl, hu, hv⟩ := List.map_eq_append_iff.mp h.symm
  obtain ⟨c, rfl, hc⟩ := List.map_eq_singleton_iff.mp hv
  obtain rfl := lineFeed_isCaseless.toLower_eq_iff.mp hc
  exact ⟨u', rfl, sameUpToCase_iff.mpr hu.symm⟩

/-- a line in other letters -/
def Respelled : Bytes → Bytes → Prop := Varied fun t t' => t.sameUpToCase t' = true

theorem Recased.respelled {w : Text} {l l' : Bytes} (h : Recased w l l') : Respelled l l' := by
  obtain ⟨a, b, w', -, hsame, rfl, rfl⟩ := h
  exact .inr ⟨_, _, rfl, rfl, sameUpToCase_append (sameUpToCase_append (sameUpToCase_refl a) hsame)
    (sameUpToCase_refl b)⟩

theorem Respelled.isEnded {l l' : Bytes} (h : Respelled l l') (hl : IsEnded l) : IsEnded l' := by
  rcases h with rfl | ⟨t, t', rfl, rfl, hsame⟩
  · exact hl
  · obtain ⟨u, hn, rfl⟩ := isEnded_encode_iff.mp hl
    obtain ⟨u', rfl, hu⟩ := exists_concat_of_sameUpToCase hsame
    exact isEnded_encode_iff.mpr ⟨u', by rwa [← mem_iff_of_sameUpToCase hu lineFeed_isCaseless], rfl⟩

theorem Respelled.isUnended {l l' : Bytes} (h : Respelled l l') (hl : IsUnended l) :
    IsUnended l' := by
  rcases h with rfl | ⟨t, t', rfl, rfl, hsame⟩
  · exact hl
  · rw [isUnended_encode_iff] at hl ⊢
    rwa [Ne, ← eq_nil_iff_of_sameUpToCase hsame,
      ← mem_iff_of_sameUpToCase hsame lineFeed_isCaseless]

theorem RecasedCode.respelled {l l' : Bytes} (h : RecasedCode l l') : Respelled l l' := by
  rcases h with rfl | ⟨t, -, -, h⟩
  · exact .inl rfl
  · exact h.respelled

theorem RecasedOpcode.respelled {l l' : Bytes} (h : RecasedOpcode l l') : Respelled l l' := by
  rcases h with rfl | ⟨t, opcode, operands, -, -, h⟩
  · exact .inl rfl
  · exact h.respelled

theorem RecasedLines.respelled {ls ls' : List Bytes} (h : RecasedLines ls ls') :
    List.Forall₂ Respelled ls ls' := by
  induction h with
  | nil => exact .nil
  | skip _ _ ih => exact .cons (.inl rfl) ih
  | first _ hl hls => exact .cons hl.respelled (hls.imp fun _ _ h => h.respelled)

/-- **No line begins or ends elsewhere.** -/
theorem RecasedSource.lines {bs bs' : Bytes} (h : RecasedSource bs bs') :
    RecasedLines (breakLines bs) (breakLines bs') := by
  obtain ⟨ls, ls', hls, hrecased, rfl⟩ := h
  have hls' : AreLines ls'.flatten ls' :=
    hls.of_forall₂ Respelled.isEnded (fun h hl => .inl (h.isUnended hl)) hrecased.respelled
  rwa [← areLines_iff.mp hls, ← areLines_iff.mp hls']

end Ippcode.Source
