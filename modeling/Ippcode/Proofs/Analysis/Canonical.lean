import Ippcode.Proofs.Analysis.Run
import Ippcode.Proofs.Program.Document

/-!
# Canonical sources

A program that was read from a source can be written down as a source again: the header, and each
instruction on a line of its own.  This is read as the same program.

* `IsAccepted x`       an opcode of the instruction set with arguments of its classes;
* `fields_spell`       such an instruction is spelled as one word after the other, with nothing in
                       it that ends a line or starts a comment (`clean_spell`);
* `passes_canonical`   the lines of a canonical source pass;
* `parse_source`       reading the canonical source, and what it has to do with the document.
-/

namespace Ippcode

open Text Utf8 Source

/-- an instruction that the check lets pass -/
def IsAccepted (x : Text × List Argument) : Prop :=
  ∃ e ∈ Table.entries, e.opcode = x.1 ∧ List.Forall₂ OperandClass.Admits e.operands x.2

theorem Source.Says.isAccepted {raw : Bytes} {x : Text × List Argument} (h : Says raw x) :
    IsAccepted x := by
  obtain ⟨t, -, e, he, f, -, -, hop, has⟩ := h
  exact ⟨e, he, hop, has⟩

theorem Source.Passes.isAccepted {ls : List Bytes} {xs : Said} (h : Passes ls (some xs)) :
    ∀ x ∈ xs, IsAccepted x := by
  generalize ho : some xs = o at h
  induction h generalizing xs with
  | start => cases ho
  | blank _ _ ih => exact ih ho
  | header =>
    obtain rfl := Option.some.inj ho
    simp
  | statement _ hl ih =>
    obtain rfl := Option.some.inj ho
    exact List.forall_mem_append.mpr ⟨ih rfl, List.forall_mem_singleton.mpr hl.isAccepted⟩

/-! ## words, one after the other -/

theorem joined_words (w : Text) (ws : List Text) :
    joined [' '] (w :: ws) = w ++ ws.flatMap fun v => ' ' :: v := by
  induction ws generalizing w with
  | nil => rw [joined_singleton, List.flatMap_nil, List.append_nil]
  | cons v ws ih =>
    rw [joined_cons_cons, ih, List.flatMap_cons]
    rfl

/-! ## spelled instructions -/

section

variable {x : Text × List Argument}

theorem spell_eq (x : Text × List Argument) :
    spell x.1 x.2 = joined [' '] (x.1 :: x.2.map Argument.spelling) := by
  rw [spell, joined_words, List.flatMap_map]

theorem IsAccepted.isWord (h : IsAccepted x) :
    ∀ v ∈ x.1 :: x.2.map Argument.spelling, IsWord v := by
  obtain ⟨e, he, hop, has⟩ := h
  exact List.forall_mem_cons.mpr
    ⟨hop ▸ Table.isWord_opcode he, OperandClass.isWord_of_forall₂ has⟩

theorem IsAccepted.clean_opcode (h : IsAccepted x) : ∀ c ∈ x.1, c ∉ boundaries := by
  obtain ⟨e, he, hop, -⟩ := h
  rw [← hop]
  exact Table.clean_opcode e he

theorem IsAccepted.isWellSpelled (h : IsAccepted x) : ∀ a ∈ x.2, a.IsWellSpelled := by
  obtain ⟨e, -, -, has⟩ := h
  exact OperandClass.isWellSpelled_of_forall₂ has

/-- The words of a spelled instruction stand in it. -/
theorem IsAccepted.splits_spell (h : IsAccepted x) :
    Splits (x.2.map Argument.spelling).length (x.1 :: x.2.map Argument.spelling)
      (spell x.1 x.2) := by
  rw [spell_eq]
  exact splits_joined_words h.isWord

theorem IsAccepted.fields_spell (h : IsAccepted x) :
    fields (spell x.1 x.2) = x.1 :: x.2.map Argument.spelling :=
  h.splits_spell.fields_eq h.isWord

/-- Only spaces stand between the words. -/
theorem IsAccepted.clean_spell (h : IsAccepted x) :
    ∀ c ∈ spell x.1 x.2, c = ' ' ∨ c ∉ boundaries := by
  intro c hc
  rcases List.mem_append.mp hc with hc | hc
  · exact .inr (h.clean_opcode c hc)
  · obtain ⟨a, ha, hc⟩ := List.mem_flatMap.mp hc
    rcases List.mem_cons.mp hc with hc | hc
    · exact .inl hc
    · exact .inr (a.clean_spelling (h.isWellSpelled a ha) c hc)

theorem IsAccepted.notMem_spell (h : IsAccepted x) {c : Char} (hc : c ∈ boundaries)
    (hs : c ≠ ' ') : c ∉ spell x.1 x.2 := by
  intro hm
  rcases h.clean_spell c hm with rfl | hn
  · exact hs rfl
  · exact hn hc

/-- A spelled instruction is all the code on its line. -/
theorem IsAccepted.code_spell (h : IsAccepted x) :
    code (spell x.1 x.2 ++ ['\n']) = spell x.1 x.2 := by
  rw [code_append_separators (by decide)]
  exact code_eq_self h.splits_spell.isTrimmed (h.notMem_spell (by decide) (by decide))

theorem IsAccepted.says_spell (h : IsAccepted x) :
    Says (encode (spell x.1 x.2 ++ ['\n'])) x := by
  obtain ⟨e, he, hop, has⟩ := h
  have hx : IsAccepted x := ⟨e, he, hop, has⟩
  refine ⟨_, rfl, e, he, x.1, ?_, ?_, hop, has⟩
  · rw [hx.code_spell, hx.fields_spell]
  · rw [hop]
    exact sameUpToCase_refl _

end

/-! ## canonical sources -/

/-- the lines of a canonical source, without their ends -/
def canonicalLines (xs : Said) : List Text := header :: xs.map fun x => spell x.1 x.2

theorem source_ofList (xs : Said) :
    (Program.ofList xs).source = ofLines (canonicalLines xs) := by
  have hlines : (Program.ofList xs).toList.map Instruction.spelling
      = xs.map fun x => spell x.1 x.2 := by
    rw [Program.toList_ofList, List.map_map]
    show (xs.zipIdx 1).map ((fun x => spell x.1 x.2) ∘ Prod.fst) = _
    rw [← List.map_map, List.zipIdx_map_fst]
  rw [Program.source, canonicalLines, ← hlines, ofLines, List.flatMap_cons, List.flatMap_map]
  rfl

theorem breakLines_canonical {xs : Said} (h : ∀ x ∈ xs, IsAccepted x) :
    breakLines (encode (ofLines (canonicalLines xs)))
      = (canonicalLines xs).map fun t => encode (t ++ ['\n']) := by
  symm
  rw [← areLines_iff]
  apply areLines_encode
  refine List.forall_mem_cons.mpr ⟨by decide, ?_⟩
  intro t ht
  obtain ⟨x, hx, rfl⟩ := List.mem_map.mp ht
  exact (h x hx).notMem_spell (by decide) (by decide)

/-- more instructions, each spelled on a line of its own -/
theorem passes_spelled {ls : List Bytes} {xs ys : Said} (hls : Passes ls (some ys))
    (h : ∀ x ∈ xs, IsAccepted x) :
    Passes (ls ++ xs.map fun x => encode (spell x.1 x.2 ++ ['\n'])) (some (ys ++ xs)) := by
  induction xs generalizing ls ys with
  | nil =>
    rw [List.map_nil, List.append_nil, List.append_nil]
    exact hls
  | cons x xs ih =>
    rw [List.forall_mem_cons] at h
    have hrest := ih (hls.statement h.1.says_spell) h.2
    rwa [List.append_assoc, List.append_assoc] at hrest

/-- The lines of a canonical source pass, and say what the program is. -/
theorem passes_canonical {xs : Said} (h : ∀ x ∈ xs, IsAccepted x) :
    Passes (breakLines (encode (Program.ofList xs).source)) (some xs) := by
  have hheader : IsHeader (encode (header ++ ['\n'])) := ⟨_, rfl, by decide⟩
  have hpasses := passes_spelled (Passes.start.header hheader) h
  rw [source_ofList, breakLines_canonical h, canonicalLines, List.map_cons, List.map_map]
  exact hpasses

theorem plainOpcodes_of_isAccepted {xs : Said} (h : ∀ x ∈ xs, IsAccepted x) :
    Program.PlainOpcodes xs := by
  intro x hx
  obtain ⟨e, he, hop, -⟩ := h x hx
  rw [← hop]
  exact Table.not_special_opcode e he

/-- the opcodes and arguments of a program that was read -/
theorem exists_isAccepted {bs : Bytes} {p : Program} (h : parse bs = .ok p) :
    ∃ xs, (∀ x ∈ xs, IsAccepted x) ∧ p = Program.ofList xs := by
  obtain ⟨xs, hp, rfl⟩ := parse_eq_ok_iff.mp h
  exact ⟨xs, hp.isAccepted, rfl⟩

theorem parse_source_ofList {xs : Said} (h : ∀ x ∈ xs, IsAccepted x) :
    parse (encode (Program.ofList xs).source) = .ok (Program.ofList xs) :=
  parse_of_passes (passes_canonical h)

/-- **The canonical source of a program that was read is read as the same program**, and sources
have the same document when they have the same canonical source. -/
theorem parse_source {bs : Bytes} {p : Program} (h : parse bs = .ok p) :
    parse (encode p.source) = .ok p ∧
      ∀ bs' p', parse bs' = .ok p' → (p.document = p'.document ↔ p.source = p'.source) := by
  obtain ⟨xs, hxs, rfl⟩ := exists_isAccepted h
  refine ⟨parse_source_ofList hxs, ?_⟩
  intro bs' p' h'
  obtain ⟨ys, hys, rfl⟩ := exists_isAccepted h'
  refine ⟨fun hdoc => ?_, fun hsource => ?_⟩
  · rw [Program.eq_of_document_eq (plainOpcodes_of_isAccepted hxs)
      (plainOpcodes_of_isAccepted hys) hdoc]
  · have hparse := parse_source_ofList hxs
    rw [hsource, parse_source_ofList hys] at hparse
    rw [Except.ok.inj hparse]

/-- a source with layout of its own -/
theorem parse_source_layout :
    let bs := encode ".ippCODE22 # x\n\n move GF@x\t string@a\\032b\nBreak".toList
    let p := Program.ofList [("MOVE".toList, [.var .globals "x".toList,
      .string "a\\032b".toList]), ("BREAK".toList, [])]
    parse bs = .ok p ∧ parse (encode p.source) = .ok p := by
  intro bs p
  have hparse : parse bs = .ok p := by rfl
  exact ⟨hparse, (parse_source hparse).1⟩

end Ippcode
