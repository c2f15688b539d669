import Ippcode.Proofs.Analysis.Run
import Ippcode.Proofs.Source.Parts

/-!
# Operands too many or too few

A statement shows three operands at most, whatever their number on the line is.  So the number alone
does not give away every line that has too many of them: with an opcode that takes three, the
surplus is a part of the third.  Such an operand has a separator in it and belongs to no class.

* `Miscounted n t e f ts`   the faults of a line with the entry `e` and the fields `f :: ts`;
* `exists_surplus`          the third of too many operands is no word;
* `check_miscounted`        a line with another number of operands than its opcode asks for has one
                            of these faults.
-/

namespace Ippcode

open Text Source

namespace Source.Statement

/-- What is wrong with line `n`, whose text `t` has the opcode `f` of the entry `e` and after it the
fields `ts`, when these are not as many as `e` asks for. -/
inductive Miscounted (n : Nat) (t : Text) (e : Entry) (f : Text) (ts : List Text) :
    Fault → Prop where
  /-- their number shows, or that there are more than three -/
  | count : ¬ (e.arity = 3 ∧ 3 < ts.length) →
      Miscounted n t e f ts (.operandCount n e.opcode e.arity (min ts.length 3))
  /-- one of the first two has a fault of its own -/
  | early {i : Nat} {c : OperandClass} {w : Text} : e.arity = 3 → 3 < ts.length → i < 2 →
      OperandClass.FirstOutside e.operands ts i c w →
      Miscounted n t e f ts (.operandClass n e.opcode (i + 1) w c.name)
  /-- the surplus makes the third one what it must not be -/
  | surplus {c : OperandClass} {before w tail : Text} : e.arity = 3 → 3 < ts.length →
      (∀ i < 2, ∀ d v, e.operands[i]? = some d → ts[i]? = some v → d.Word v) →
      e.operands[2]? = some c → code t = before ++ (w ++ tail) → fields before = f :: ts.take 2 →
      ts[2]? = some w → (∀ d, before.getLast? = some d → isSeparator d = true) →
      Miscounted n t e f ts (.operandClass n e.opcode 3 (w ++ tail) c.name)

section

variable {n : Nat} {t f : Text} {ts : List Text} {e : Entry} {s : Statement}

theorem Miscounted.exitCode {g : Fault} (h : Miscounted n t e f ts g) : g.exitCode = 23 := by
  cases h <;> rfl

/-! ## the statement of a line with known fields -/

theorem exists_ofLine?_of_fields (n : Nat) (hf : fields (code t) = f :: ts) :
    ∃ s, ofLine? n t = some s := by
  refine exists_ofLine? n fun hc => ?_
  rw [hc, fields_nil] at hf
  cases hf

theorem opcode_eq_of_fields (hs : ofLine? n t = some s) (hf : fields (code t) = f :: ts) :
    s.opcode = f := by
  have hzero := (splits_of_ofLine? hs).getElem?_eq (i := 0) (by decide)
  rw [hf] at hzero
  exact Option.some.inj hzero

theorem length_operands_of_fields (hs : ofLine? n t = some s) (hf : fields (code t) = f :: ts) :
    s.operands.length = min ts.length 3 := by
  have hlength := (splits_of_ofLine? hs).length_eq
  rw [hf, List.length_cons, List.length_cons] at hlength
  omega

/-- the first two operands are fields of the line -/
theorem getElem?_operands_of_fields (hs : ofLine? n t = some s) (hf : fields (code t) = f :: ts)
    {i : Nat} (hi : i < 2) : s.operands[i]? = ts[i]? := by
  have hsucc := (splits_of_ofLine? hs).getElem?_eq (i := i + 1) (by omega)
  rw [hf] at hsucc
  exact hsucc

/-- On a line with more than three operands the third one is all that the code has from there on,
and this is no word. -/
theorem exists_surplus (hs : ofLine? n t = some s) (hf : fields (code t) = f :: ts)
    (h : 3 < ts.length) : ∃ before w tail, code t = before ++ (w ++ tail) ∧
      s.operands[2]? = some (w ++ tail) ∧ ts[2]? = some w ∧ fields before = f :: ts.take 2 ∧
      (∀ d, before.getLast? = some d → isSeparator d = true) ∧ ¬ IsWord (w ++ tail) := by
  have hlong : 3 < (fields (code t)).length := by
    rw [hf, List.length_cons]
    omega
  obtain ⟨before, w, tail, hcode, hthird, hw, hbefore, hsep⟩ :=
    (splits_of_ofLine? hs).exists_rest hlong
  refine ⟨before, w, tail, hcode, hthird, ?_, ?_, hsep, fun hword => ?_⟩
  · rw [hf] at hw
    exact hw
  · rw [hbefore, hf, List.take_succ_cons]
  · -- a word is one field, but here are all fields but three
    have hall := congrArg List.length hf
    rw [hcode, fields_append_of_getLast? hsep, fields_word hword, List.length_append, hbefore,
      List.length_take, List.length_singleton, List.length_cons] at hall
    omega

/-! ## the fault -/

/-- An operand that is no word belongs to no class, so that the reading stops there if not before. -/
theorem exists_firstOutside_of_not_isWord (n k : Nat) (opcode : Text) {cs : List OperandClass}
    {ws : List Text} {w : Text} (hcount : ws.length = cs.length) (hw : w ∈ ws) (hn : ¬ IsWord w) :
    ∃ i c u, OperandClass.FirstOutside cs ws i c u ∧
      readOperands n opcode k cs ws = .error (.operandClass n opcode (k + i) u c.name) := by
  cases hr : readOperands n opcode k cs ws with
  | ok as =>
    exfalso
    obtain ⟨has, hspelled⟩ := (readOperands_eq_ok_iff n opcode hcount).mp hr
    rw [← hspelled] at hw
    exact hn (OperandClass.isWord_of_forall₂ has w hw)
  | error g =>
    obtain ⟨i, c, u, hfirst, rfl⟩ := (readOperands_eq_error_iff n opcode).mp hr
    exact ⟨i, c, u, hfirst, rfl⟩

/-- The first operand outside its class is a field of the line, or the third one with the
surplus. -/
theorem miscounted_of_firstOutside (hs : ofLine? n t = some s) (hf : fields (code t) = f :: ts)
    (he : e.arity = 3) (hlong : 3 < ts.length) {i : Nat} {c : OperandClass} {u : Text}
    (hfirst : OperandClass.FirstOutside e.operands s.operands i c u) :
    Miscounted n t e f ts (.operandClass n e.opcode (i + 1) u c.name) := by
  obtain ⟨before, w, tail, hcode, hthird, hw, hbefore, hsep, -⟩ := exists_surplus hs hf hlong
  have hi : i < 3 := by
    have hlt := (List.getElem?_eq_some_iff.mp hfirst.class_eq).1
    rwa [← Entry.arity, he] at hlt
  by_cases htwo : i < 2
  · refine .early he hlong htwo ⟨hfirst.class_eq, ?_, hfirst.outside, ?_⟩
    · rw [← getElem?_operands_of_fields hs hf htwo]
      exact hfirst.word_eq
    · intro j hj d v hd hv
      rw [← getElem?_operands_of_fields hs hf (by omega)] at hv
      exact hfirst.before j hj d v hd hv
  · obtain rfl : i = 2 := by omega
    obtain rfl : w ++ tail = u := Option.some.inj (hthird.symm.trans hfirst.word_eq)
    refine .surplus he hlong ?_ hfirst.class_eq hcode hbefore hw hsep
    intro j hj d v hd hv
    rw [← getElem?_operands_of_fields hs hf hj] at hv
    exact hfirst.before j hj d v hd hv

/-- Where the surplus is a part of the third operand, one of the three is outside its class. -/
theorem miscounted_of_surplus (hs : ofLine? n t = some s) (hf : fields (code t) = f :: ts)
    (hl : Table.lookup? f = some e) (he : e.arity = 3) (hlong : 3 < ts.length) :
    ∃ g, s.check = .error g ∧ Miscounted n t e f ts g := by
  obtain ⟨_, w, tail, -, hthird, -, -, -, hnoword⟩ := exists_surplus hs hf hlong
  have hlookup : Table.lookup? s.opcode = some e := by rw [opcode_eq_of_fields hs hf, hl]
  have hcount : s.operands.length = e.arity := by
    rw [length_operands_of_fields hs hf, he]
    omega
  obtain ⟨i, c, u, hfirst, hread⟩ := exists_firstOutside_of_not_isWord n 1 e.opcode hcount
    (List.mem_of_getElem? hthird) hnoword
  rw [check_of_entry hlookup hcount, ofLine?_line hs, hread, Nat.add_comm 1 i]
  exact ⟨_, rfl, miscounted_of_firstOutside hs hf he hlong hfirst⟩

/-- Everywhere else the number of operands gives the line away. -/
theorem miscounted_of_count (hs : ofLine? n t = some s) (hf : fields (code t) = f :: ts)
    (hl : Table.lookup? f = some e) (hm : ts.length ≠ e.arity)
    (h : ¬ (e.arity = 3 ∧ 3 < ts.length)) :
    ∃ g, s.check = .error g ∧ Miscounted n t e f ts g := by
  have hlookup : Table.lookup? s.opcode = some e := by rw [opcode_eq_of_fields hs hf, hl]
  have harity : e.arity ≤ 3 := Table.arity_le e (Table.mem_entries_of_lookup? hl)
  have hcount : s.operands.length ≠ e.arity := by
    rw [length_operands_of_fields hs hf]
    omega
  refine ⟨_, check_of_count hlookup hcount, ?_⟩
  rw [ofLine?_line hs, length_operands_of_fields hs hf]
  exact .count h

/-- **A line with too many operands, or too few, is never accepted.**  Its fault is that their number
is wrong; but where an opcode takes three and more stand on the line, it is that of the first
operand outside its class, which is the third one at the latest, as it has the surplus in it.  An
analysis that comes to such a line ends there, with the program that it had before. -/
theorem check_miscounted (n : Nat) (hf : fields (code t) = f :: ts) (he : e ∈ Table.entries)
    (hf' : e.opcode.sameUpToCase f = true) (hm : ts.length ≠ e.arity) :
    ∃ s g, ofLine? n t = some s ∧ s.check = .error g ∧ g.exitCode = 23 ∧
      Miscounted n t e f ts g ∧
      ∀ (a : Analysis) (raw : Bytes), a.phase = .body → a.line + 1 = n →
        readAfter a.line raw = .ok t →
        (a.read raw).phase = .stopped g ∧ (a.read raw).program = a.program := by
  have hl := Table.lookup?_eq_some_iff.mpr ⟨he, hf'⟩
  obtain ⟨s, hs⟩ := exists_ofLine?_of_fields n hf
  obtain ⟨g, hg, hmis⟩ : ∃ g, s.check = .error g ∧ Miscounted n t e f ts g := by
    by_cases h : e.arity = 3 ∧ 3 < ts.length
    · exact miscounted_of_surplus hs hf hl h.1 h.2
    · exact miscounted_of_count hs hf hl hm h
  refine ⟨s, g, hs, hg, hmis.exitCode, hmis, ?_⟩
  intro a raw hphase hline hraw
  subst hline
  have hread : a.read raw = a.pass.stop g := by
    have hrest : ¬ a.phase.Stopped := hphase ▸ Phase.not_stopped_body
    rw [Analysis.read_eq_turn hrest, hraw, Analysis.turn, hphase, Phase.effect_body hs, hg]
    rfl
  rw [hread]
  exact ⟨rfl, rfl⟩

/-- four operands for an opcode of three, the last two of which would do on their own -/
theorem check_miscounted_glued :
    let t := "Add GF@x GF@y\tstring@a  int@1 # b".toList
    let ts := ["GF@x".toList, "GF@y".toList, "string@a".toList, "int@1".toList]
    let e : Entry := ⟨"ADD".toList, [.var, .symbol, .symbol]⟩
    let s : Statement := ⟨7, "Add".toList, ["GF@x".toList, "GF@y".toList, "string@a  int@1".toList]⟩
    let g := Fault.operandClass 7 "ADD".toList 3 "string@a  int@1".toList "symbol".toList
    fields (code t) = "Add".toList :: ts ∧ e ∈ Table.entries ∧
      e.opcode.sameUpToCase "Add".toList = true ∧ ts.length ≠ e.arity ∧
      ofLine? 7 t = some s ∧ s.check = .error g ∧ g.exitCode = 23 ∧
      Miscounted 7 t e "Add".toList ts g ∧
      ∀ (a : Analysis) (raw : Bytes), a.phase = .body → a.line + 1 = 7 →
        readAfter a.line raw = .ok t →
        (a.read raw).phase = .stopped g ∧ (a.read raw).program = a.program := by
  intro t ts e s g
  have hf : fields (code t) = "Add".toList :: ts := by decide
  have he : e ∈ Table.entries := by decide
  have hsame : e.opcode.sameUpToCase "Add".toList = true := by decide
  have hm : ts.length ≠ e.arity := by decide
  have hs : ofLine? 7 t = some s := by decide
  have hg : s.check = .error g := by rfl
  obtain ⟨s', g', hs', hg', hcode, hmis, hstop⟩ := check_miscounted 7 hf he hsame hm
  obtain rfl : s = s' := Option.some.inj (hs.symm.trans hs')
  obtain rfl : g = g' := Except.error.inj (hg.symm.trans hg')
  exact ⟨hf, he, hsame, hm, hs, hg, hcode, hmis, hstop⟩

end

end Source.Statement

end Ippcode
