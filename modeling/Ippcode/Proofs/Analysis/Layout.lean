import Ippcode.Proofs.Analysis.Concatenation
import Ippcode.Proofs.Source.Layout

/-!
# Layout is meaningless

What comes of a source does not depend on how it is laid out.

* `parse_relaid`        separators, comments and the last line feed change nothing;
* `parse_insert_blank`  a line without code only moves down what is below it.

The first holds because a line is read by its code (`read_congr`), the second because the machine
after the new line is the one before it, one line further down (`ahead_blank`).  `parse_layout`
says both.
-/

namespace Ippcode

open Source Utf8

namespace Analysis

/-! ## lines with the same code -/

/-- how a line is read, by its code -/
theorem readAfter_cases {l l' : Bytes} (h : lineCode? l' = lineCode? l) (n : Nat) :
    readAfter n l' = readAfter n l ∨
      ∃ t t', readAfter n l = .ok t ∧ readAfter n l' = .ok t' ∧ code t' = code t := by
  unfold readAfter lineText?
  rw [lineCode?, lineCode?] at h
  cases hl : decode? l with
  | none =>
    rw [hl, Option.map_none, Option.map_eq_none_iff] at h
    rw [h]
    exact .inl rfl
  | some t =>
    rw [hl, Option.map_some, Option.map_eq_some_iff] at h
    obtain ⟨t', hl', hcode⟩ := h
    rw [hl']
    exact .inr ⟨chomp t, chomp t', rfl, rfl, by rw [code_chomp, code_chomp, hcode]⟩

/-- A line is read by its code. -/
theorem read_congr (a : Analysis) {l l' : Bytes} (h : lineCode? l' = lineCode? l) :
    a.read l' = a.read l := by
  by_cases ha : a.phase.Stopped
  · obtain ⟨f, ha⟩ := ha
    rw [read_of_stopped ha, read_of_stopped ha]
  · rw [read_eq_turn ha, read_eq_turn ha]
    rcases readAfter_cases h a.line with heq | ⟨t, t', ht, ht', hcode⟩
    · rw [heq]
    · rw [ht, ht', turn, turn, Phase.effect_congr hcode]

theorem readAll_congr {ls ls' : List Bytes}
    (h : List.Forall₂ (fun l l' => lineCode? l' = lineCode? l) ls ls') (a : Analysis) :
    a.readAll ls' = a.readAll ls := by
  induction h generalizing a with
  | nil => rfl
  | cons hl _ ih => rw [readAll_cons, readAll_cons, read_congr a hl, ih]

/-! ## a line without code -/

/-- A line without code puts the machine one line further down, and does nothing else. -/
theorem ahead_blank {a : Analysis} {ls : List Bytes} {o : Option Said} (h : After a ls o)
    {l : Bytes} (hl : Blank l) : Ahead 1 .empty a (a.read l) := by
  rw [read_of_blank h hl]
  exact ⟨rfl, Phase.matches_of_not_stopped h.not_stopped _, (Program.empty_append _).symm⟩

end Analysis

open Analysis

/-- **A source may be laid out at will.** -/
theorem parse_relaid {bs bs' : Bytes} (h : Relaid bs bs') : parse bs' = parse bs := by
  obtain ⟨ls, ls', hls, hedits, rfl⟩ := h
  have hls' := hls.relaid hedits
  have hcodes : List.Forall₂ (fun l l' => lineCode? l' = lineCode? l) ls ls' :=
    hedits.imp fun _ _ he => lineCode?_eq_of_edits he
  rw [areLines_iff] at hls hls'
  rw [parse, parse, ofSource, ofSource, ← hls, ← hls', readAll_congr hcodes]

/-! ## one line more -/

/-- the same fault after one line more has come in below line `n` -/
def Fault.insertLine (n : Nat) (f : Fault) : Fault :=
  match f.line? with
  | some k => if n < k then f.shift 1 else f
  | none => f

theorem Fault.insertLine_of_le {f : Fault} {k n : Nat} (h : f.line? = some k) (hk : k ≤ n) :
    f.insertLine n = f := by
  unfold insertLine
  rw [h]
  exact if_neg (Nat.not_lt.mpr hk)

theorem Fault.insertLine_of_lt {f : Fault} {n : Nat} (h : ∀ k, f.line? = some k → n < k) :
    f.insertLine n = f.shift 1 := by
  unfold insertLine
  cases hf : f.line? with
  | none => exact (shift_of_line?_eq_none hf 1).symm
  | some k => exact if_pos (h k hf)

/-- where the lines of `a` pass, a fault is on a later line -/
theorem length_lt_of_passes {a b : Bytes} (ha : AtBoundary a) {o : Option Said}
    (hp : Passes (breakLines a) o) {f : Fault} (h : parse (a ++ b) = .error f) {k : Nat}
    (hk : f.line? = some k) : (breakLines a).length < k := by
  rcases parse_eq_error_iff.mp h with ⟨-, rfl⟩ | ⟨before, l, after, o', n, hls, -, hl⟩
  · cases hk
  · obtain rfl : before.length + 1 = k := Option.some.inj (hl.line?.symm.trans hk)
    rw [breakLines_append ha] at hls
    rcases List.append_eq_append_iff.mp hls with ⟨c, rfl, -⟩ | ⟨c, hac, hc⟩
    · rw [List.length_append]
      omega
    · cases c with
      | nil =>
        rw [hac, List.append_nil]
        exact Nat.lt_succ_self _
      | cons d c =>
        obtain rfl := (List.cons.inj hc).1
        exact absurd hl (hp.not_offends hac)

/-- **A line without code moves down what is below it, and does nothing else.** -/
theorem parse_insert_blank {a : Bytes} (ha : AtBoundary a) {t : Text} (hn : '\n' ∉ t)
    (ht : code t = []) (b : Bytes) : parse (a ++ encode (t ++ ['\n']) ++ b)
      = (parse (a ++ b)).mapError (Fault.insertLine (a.count lineFeed)) := by
  have hline : breakLines (encode (t ++ ['\n']) ++ b)
      = encode (t ++ ['\n']) :: breakLines b := by
    rw [encode_append, encode_lineFeed, List.append_assoc]
    exact breakLines_line (by rwa [lineFeed_mem_encode_iff]) b
  have hblank : Blank (encode (t ++ ['\n'])) := by
    refine ⟨_, rfl, ?_⟩
    rw [code_append_separators (by decide), ht]
  rw [List.append_assoc, ← length_breakLines ha]
  rcases passes_or_offends (breakLines a) with ⟨o, hp⟩ | ⟨c, l, d, o, f, n, hls, hc, hl⟩
  · have hafter : After (ofSource a) (breakLines a) o := after_readAll hp
    have hahead := (ahead_blank hafter hblank).readAll (breakLines b)
    have hfault : ∀ f, parse (a ++ b) = .error f →
        f.insertLine (breakLines a).length = f.shift 1 := by
      intro f hf
      exact Fault.insertLine_of_lt fun k hk => length_lt_of_passes ha hp hf hk
    rw [parse_append_eq_result ha, hline, readAll_cons, hahead.result, ← parse_append_eq_result ha]
    cases hab : parse (a ++ b) with
    | ok p => exact congrArg Except.ok (Program.empty_append p)
    | error f => exact congrArg Except.error (hfault f hab).symm
  · -- the fault is in `a`, and the rest is not read
    have hle : c.length + 1 ≤ (breakLines a).length := by
      rw [hls, List.length_append, List.length_cons]
      omega
    rw [parse_append_of_offends ha hls hc hl, parse_append_of_offends ha hls hc hl]
    exact congrArg Except.error (Fault.insertLine_of_le hl.line? hle).symm

/-- **Layout is meaningless.** -/
theorem parse_layout (bs : Bytes) :
    (∀ bs', Relaid bs bs' → parse bs' = parse bs) ∧
      ∀ a t b, bs = a ++ b → AtBoundary a → '\n' ∉ t → code t = [] →
        parse (a ++ encode (t ++ ['\n']) ++ b)
          = (parse bs).mapError (Fault.insertLine (a.count lineFeed)) := by
  refine ⟨fun bs' h => parse_relaid h, ?_⟩
  intro a t b hbs ha hn ht
  rw [hbs]
  exact parse_insert_blank ha hn ht b

/-- A faulty source with other layout has the fault on the same line, and with a comment of its
own above it one line further down. -/
theorem parse_layout_fault :
    let bs := encode ".IPPcode22\nFROB".toList
    parse bs = .error (.unknownOpcode 2 "FROB".toList) ∧
      parse (encode " .IPPcode22\r\nFROB# c\n".toList)
        = .error (.unknownOpcode 2 "FROB".toList) ∧
      parse (encode ".IPPcode22\n# c\nFROB".toList)
        = .error (.unknownOpcode 3 "FROB".toList) := by
  intro bs
  have hparse : parse bs = .error (.unknownOpcode 2 "FROB".toList) := by rfl
  let first := encode ".IPPcode22".toList
  let last := encode "FROB".toList
  have hfirst : Relation.ReflTransGen Edit (first ++ [lineFeed])
      (encode [' '] ++ (first ++ encode ['\r'] ++ [lineFeed])) :=
    .tail (.single (.trail (by decide) (.inr rfl) (.inl (by decide)))) (.indent (by decide))
  have hlast : Relation.ReflTransGen Edit (last ++ [])
      (last ++ encode "# c".toList ++ [] ++ [lineFeed]) :=
    .tail (.single (.trail (by decide) (.inl rfl) (.inr ⟨" c".toList, by decide, rfl⟩)))
      (.finish (by decide))
  have hrelaid : Relaid bs (encode " .IPPcode22\r\nFROB# c\n".toList) :=
    ⟨_, _, areLines_iff.mpr (by decide), .cons hfirst (.cons hlast .nil), by decide⟩
  refine ⟨hparse, ?_, ?_⟩
  · rw [(parse_layout bs).1 _ hrelaid, hparse]
  · have hinsert := (parse_layout bs).2 (encode ".IPPcode22\n".toList) "# c".toList
      (encode "FROB".toList) (by decide) (by decide) (by decide) (by decide)
    rw [hparse] at hinsert
    exact hinsert

end Ippcode
