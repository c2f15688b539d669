import Ippcode.Proofs.Analysis.Run
import Ippcode.Proofs.Analysis.Shift

/-!
# Sources, one after the other

What comes of a source `p ++ q`, where `q` begins on a line of its own.  A fault in `p` is all that
comes of it.  If `p` has no code, `q` is analysed as if it stood alone, further down.  If `p` is a
program, `q` is analysed as if only the header stood before it, and its instructions come after
those of `p`.

`parse_append` says all three.
-/

namespace Ippcode

open Source Utf8 Analysis

/-- the analysis of `q` goes on where that of `p` ends -/
theorem parse_append_eq_result {p : Bytes} (hp : AtBoundary p) (q : Bytes) :
    parse (p ++ q) = ((ofSource p).readAll (breakLines q)).result := by
  rw [parse, ofSource, breakLines_append hp, readAll_append, ofSource]

/-- a line that offends is what comes of a source, whatever follows -/
theorem parse_append_of_offends {p : Bytes} (hp : AtBoundary p) {before after : List Bytes}
    {l : Bytes} {o : Option Said} {f : Fault} {n : Nat} (hls : breakLines p = before ++ l :: after)
    (ho : Passes before o) (hl : Offends before l f n) (q : Bytes) :
    parse (p ++ q) = .error f := by
  have hq : breakLines (p ++ q) = before ++ l :: (after ++ breakLines q) := by
    rw [breakLines_append hp, hls, List.append_assoc, List.cons_append]
  exact parse_of_offends hq ho hl

/-- After a fault nothing matters. -/
theorem parse_append_of_fault {p : Bytes} (hp : AtBoundary p) {f : Fault}
    (h : parse p = .error f) (hf : f ≠ .missingHeader header) (q : Bytes) :
    parse (p ++ q) = .error f := by
  rcases parse_eq_error_iff.mp h with ⟨-, rfl⟩ | ⟨before, l, after, o, n, hls, ho, hl⟩
  · exact absurd rfl hf
  · exact parse_append_of_offends hp hls ho hl q

/-- lines without code say nothing -/
theorem passes_none_of_parse {p : Bytes} (h : parse p = .error (.missingHeader header)) :
    Passes (breakLines p) none := by
  rcases parse_eq_error_iff.mp h with ⟨hp, -⟩ | ⟨a, l, b, o, n, -, -, hl⟩
  · exact hp
  · -- a fault of a line names the line
    have hline := hl.line?
    cases hline

/-- A source without code in front only moves a source down. -/
theorem parse_append_of_no_header {p : Bytes} (hp : AtBoundary p)
    (h : parse p = .error (.missingHeader header)) (q : Bytes) :
    parse (p ++ q) = (parse q).mapError (Fault.shift (p.count lineFeed)) := by
  have hafter := after_readAll (passes_none_of_parse h)
  have hahead : Ahead (p.count lineFeed) .empty start (ofSource p) := by
    refine ⟨?_, ?_, ?_⟩
    · rw [ofSource, hafter.line, length_breakLines hp]
      exact (Nat.zero_add _).symm
    · rw [ofSource, hafter.phase]
      exact .preamble
    · rw [ofSource, hafter.program]
      exact (Program.append_empty .empty).symm
  rw [parse_append_eq_result hp, (hahead.readAll (breakLines q)).result]
  show (Except.mapError _ (parse q)).map _ = _
  cases parse q with
  | error f => rfl
  | ok r => exact congrArg Except.ok (Program.empty_append r)

/-- a header and nothing else -/
def headerLine : Bytes := encode ".IPPcode22\n".toList

theorem passes_headerLine : Passes (breakLines headerLine) (some []) := by
  have hls : breakLines headerLine = [] ++ [headerLine] := by decide
  have hheader : IsHeader headerLine := ⟨".IPPcode22\n".toList, rfl, by decide⟩
  rw [hls]
  exact .header .start hheader

theorem atBoundary_headerLine : AtBoundary headerLine := by decide

/-- The analysis of a program is that of a header, further down and with more instructions. -/
theorem ahead_headerLine {p : Bytes} (hp : AtBoundary p) {r : Program} (h : parse p = .ok r) :
    1 ≤ p.count lineFeed ∧
      Ahead (p.count lineFeed - 1) r (ofSource headerLine) (ofSource p) := by
  obtain ⟨xs, hxs, rfl⟩ := parse_eq_ok_iff.mp h
  have hafter := after_readAll hxs
  have hheader := after_readAll passes_headerLine
  have hone : (breakLines headerLine).length = 1 := by decide
  have hpos : 1 ≤ p.count lineFeed := by
    obtain ⟨l, hl, -⟩ := hxs.afterHeader.exists_hasCode
    rw [← length_breakLines hp]
    exact List.length_pos_of_mem hl
  refine ⟨hpos, ?_, ?_, ?_⟩
  · rw [ofSource, ofSource, hafter.line, hheader.line, hone, length_breakLines hp]
    omega
  · rw [ofSource, ofSource, hafter.phase, hheader.phase]
    exact .body
  · rw [ofSource, ofSource, hafter.program, hheader.program]
    exact (Program.append_empty _).symm

/-- A program in front takes the place of the header. -/
theorem parse_append_of_program {p : Bytes} (hp : AtBoundary p) {r : Program}
    (h : parse p = .ok r) (q : Bytes) : parse (p ++ q)
      = ((parse (headerLine ++ q)).mapError (Fault.shift (p.count lineFeed - 1))).map r.append := by
  have hahead := (ahead_headerLine hp h).2
  rw [parse_append_eq_result hp, parse_append_eq_result atBoundary_headerLine,
    (hahead.readAll (breakLines q)).result]

/-- **What comes of a source that is cut at a line boundary.** -/
theorem parse_append {p : Bytes} (hp : AtBoundary p) (q : Bytes) :
    (∀ f, parse p = .error f → f ≠ .missingHeader header → parse (p ++ q) = .error f) ∧
      (parse p = .error (.missingHeader header) →
        parse (p ++ q) = (parse q).mapError (Fault.shift (p.count lineFeed))) ∧
      ∀ r, parse p = .ok r → 1 ≤ p.count lineFeed ∧ parse (p ++ q)
        = ((parse (headerLine ++ q)).mapError (Fault.shift (p.count lineFeed - 1))).map
            r.append := by
  refine ⟨?_, ?_, ?_⟩
  · intro f h hf
    exact parse_append_of_fault hp h hf q
  · intro h
    exact parse_append_of_no_header hp h q
  · intro r h
    exact ⟨(ahead_headerLine hp h).1, parse_append_of_program hp h q⟩

/-- a fault before bytes that are no text, a comment before an instruction, and two programs of
which the second has lost its header -/
theorem parse_append_cut :
    let faulty := encode ".IPPcode22\nFROB\n".toList
    let silent := encode "# c\n\n".toList
    let program := encode ".IPPcode22\n\nBREAK\n".toList
    parse (faulty ++ [0xFF]) = .error (.unknownOpcode 2 "FROB".toList) ∧
      parse (silent ++ encode "BREAK\n".toList)
        = .error (.wrongHeader 3 header "BREAK".toList) ∧
      parse (program ++ encode "RETURN".toList)
        = .ok (Program.ofList [("BREAK".toList, []), ("RETURN".toList, [])]) := by
  intro faulty silent program
  have hfaulty : AtBoundary faulty := by decide
  have hsilent : AtBoundary silent := by decide
  have hprogram : AtBoundary program := by decide
  refine ⟨?_, ?_, ?_⟩
  · exact (parse_append hfaulty [0xFF]).1 _ (by rfl) (by decide)
  · rw [(parse_append hsilent _).2.1 (by rfl)]
    rfl
  · have hrest : parse (headerLine ++ encode "RETURN".toList)
        = .ok (Program.ofList [("RETURN".toList, [])]) := by rfl
    rw [((parse_append hprogram _).2.2 (Program.ofList [("BREAK".toList, [])]) (by rfl)).2, hrest]
    apply congrArg Except.ok
    apply Program.ext_toList
    rw [Program.toList_append]
    rfl

end Ippcode
