import Ippcode.Proofs.Analysis.Canonical
import Ippcode.Proofs.Analysis.Language

/-!
# Programs and their sources

A program that was read from a source is an image of it: no instruction is lost, doubled, moved or
altered.

* `Instruction.Mirrors i t`   the instruction `i` has the fields of the line `t`, the first one in
                              capitals and the others as they are spelled;
* `Program.Mirrors p bs`      the instructions of `p` are, in order, those of the lines of `bs` that
                              have code and come after the header.

`parse_mirrors` says that programs are so.
-/

namespace Ippcode

open Text Utf8 Source

def Instruction.Mirrors (i : Instruction) (t : Text) : Prop :=
  ∃ f ts, fields (code t) = f :: ts ∧ i.opcode = upper f ∧
    i.arguments.map Argument.spelling = ts ∧ i.spelling = joined [' '] (upper f :: ts) ∧
      ∃ e, Table.lookup? i.opcode = some e ∧ i.arguments.length = e.arity

def Program.Mirrors (p : Program) (bs : Bytes) : Prop :=
  ∃ (before : List Text) (h : Text) (after : List Text),
    AreLines bs ((before ++ h :: after).map encode) ∧ (∀ t ∈ before, code t = []) ∧
      (code h).sameUpToCase header = true ∧
      List.Forall₂ Instruction.Mirrors p.toList (after.filter fun t => code t ≠ []) ∧
      p.toList.map Instruction.order = List.range' 1 p.size

/-! ## one instruction -/

theorem Source.Says.code_ne_nil {t : Text} {x : Text × List Argument} (h : Says (encode t) x) :
    code t ≠ [] := by
  obtain ⟨u, hu, e, -, f, hf, -⟩ := h
  rw [← encode_injective hu] at hf
  intro hnil
  rw [hnil, fields_nil] at hf
  cases hf

/-- a line mirrors what it says, whatever its number is -/
theorem Source.Says.mirrors {t : Text} {x : Text × List Argument} (h : Says (encode t) x)
    (n : Nat) : Instruction.Mirrors ⟨n, x.1, x.2⟩ t := by
  obtain ⟨u, hu, e, he, f, hf, hs, hop, has⟩ := h
  obtain rfl := encode_injective hu
  have hupper : x.1 = upper f := by
    rw [← hop]
    exact Table.opcode_eq_upper (Table.lookup?_eq_some_iff.mpr ⟨he, hs⟩)
  have hlookup : Table.lookup? x.1 = some e := by
    rw [← hop]
    exact Table.lookup?_eq_some_iff.mpr ⟨he, sameUpToCase_refl _⟩
  refine ⟨f, x.2.map Argument.spelling, hf, hupper, rfl, ?_, e, hlookup, has.length_eq.symm⟩
  show spell x.1 x.2 = _
  rw [spell_eq, ← hupper]

/-! ## all instructions -/

/-- The lines with code that come after the header say, one by one, what all lines say. -/
theorem Source.Passes.exists_forall₂_says {ls : List Bytes} {xs : Said} (h : Passes ls (some xs)) :
    ∃ (before : List Text) (hd : Text) (after : List Text),
      ls = (before ++ hd :: after).map encode ∧ (∀ t ∈ before, code t = []) ∧
        (code hd).sameUpToCase Source.header = true ∧
        List.Forall₂ (fun x t => Says (encode t) x) xs (after.filter fun t => code t ≠ []) := by
  generalize ho : some xs = o at h
  induction h generalizing xs with
  | start => cases ho
  | blank _ hl ih =>
    obtain ⟨before, hd, after, rfl, hb, hh, ha⟩ := ih ho
    obtain ⟨t, rfl, ht⟩ := hl
    refine ⟨before, hd, after ++ [t], by simp, hb, hh, ?_⟩
    rw [List.filter_append, List.filter_singleton, decide_eq_false (not_not_intro ht)]
    simpa using ha
  | @header ls l hp hl =>
    obtain rfl := Option.some.inj ho
    obtain ⟨t, rfl, ht⟩ := hl
    have hblank := passes_none_iff.mp hp
    obtain ⟨before, rfl⟩ := exists_texts fun k hk => (hblank k hk).imp fun _ h => h.1
    refine ⟨before, t, [], by simp, ?_, ht, .nil⟩
    intro u hu
    exact blank_encode_iff.mp (hblank _ (List.mem_map_of_mem hu))
  | @statement ls ys l x _ hl ih =>
    obtain rfl := Option.some.inj ho
    obtain ⟨before, hd, after, rfl, hb, hh, ha⟩ := ih rfl
    obtain ⟨t, rfl⟩ : ∃ t, l = encode t := hl.imp fun _ h => h.1
    refine ⟨before, hd, after ++ [t], by simp, hb, hh, ?_⟩
    rw [List.filter_append, List.filter_singleton, decide_eq_true hl.code_ne_nil]
    exact List.rel_append ha (.cons hl .nil)

theorem Program.order_toList_ofList (xs : Said) :
    (ofList xs).toList.map Instruction.order = List.range' 1 (ofList xs).size := by
  rw [← length_toList, toList_ofList, List.length_map, List.length_zipIdx, List.map_map]
  exact List.zipIdx_map_snd 1 xs

/-- **A program is an image of the source that it was read from.** -/
theorem parse_mirrors {bs : Bytes} {p : Program} (h : parse bs = .ok p) : p.Mirrors bs := by
  obtain ⟨xs, hp, rfl⟩ := parse_eq_ok_iff.mp h
  obtain ⟨before, hd, after, hls, hb, hh, ha⟩ := hp.exists_forall₂_says
  refine ⟨before, hd, after, areLines_iff.mpr hls.symm, hb, hh, ?_, Program.order_toList_ofList xs⟩
  rw [← List.zipIdx_map_fst 1 xs, List.forall₂_map_left_iff] at ha
  rw [Program.toList_ofList, List.forall₂_map_left_iff]
  exact ha.imp fun x t hx => hx.mirrors x.2

/-- a source with comments, blank lines, and an opcode in mixed case -/
theorem parse_mirrors_layout :
    let bs := encode "# a\n.IPPcode22\n\n Add GF@x\t int@1  LF@y # b\nbreak".toList
    let p := Program.ofList [("ADD".toList, [.var .globals "x".toList, .integer "1".toList,
      .var .locals "y".toList]), ("BREAK".toList, [])]
    parse bs = .ok p ∧ p.Mirrors bs := by
  intro bs p
  have hparse : parse bs = .ok p := by rfl
  exact ⟨hparse, parse_mirrors hparse⟩

end Ippcode
