import Ippcode.Proofs.Analysis.Image
import Ippcode.Proofs.Source.Recasing

/-!
# Letter case is meaningless in the header and in opcodes

Two machines are fed a source and the same source in other letters (`RecasedSource`).  They stay
alike, line by line: the same instructions, and when they come to rest, faults that differ in the
word that is shown and in nothing else.  All other words count letter by letter.

* `Fault.Alike f f'`     the same fault, up to the letter case of the word that it shows;
* `Fault.Quotes ls f`    the word that `f` shows is the one on its line;
* `Alike a a'`           the two machines; `Alike.read` is one line, `Alike.readAll` many;
* `operandWords bs`      the operands of a source, as they are spelled, which are those of its
                         program.

`parse_recased` says what comes of both sources.
-/

namespace Ippcode

open Text Utf8 Source

/-! ## faults that are alike -/

namespace Fault

/-- the same fault, up to the letter case of the word that is no header or no opcode -/
inductive Alike : Fault → Fault → Prop where
  | refl (f : Fault) : Alike f f
  | wrongHeader (line : Nat) (expected : Text) {found found' : Text} :
      found.sameUpToCase found' = true →
      Alike (.wrongHeader line expected found) (.wrongHeader line expected found')
  | unknownOpcode (line : Nat) {token token' : Text} : token.sameUpToCase token' = true →
      Alike (.unknownOpcode line token) (.unknownOpcode line token')

/-- A fault shows the code or the opcode as it stands on its line. -/
def Quotes (ls : List Bytes) : Fault → Prop
  | wrongHeader n _ found =>
    ∃ before t after, ls = before ++ encode t :: after ∧ n = before.length + 1 ∧ found = code t
  | unknownOpcode n token =>
    ∃ before t after, ls = before ++ encode t :: after ∧ n = before.length + 1 ∧
      (fields (code t)).head? = some token
  | _ => True

end Fault

/-- the same value, or faults that are alike -/
abbrev SameOutcome {α : Type} : Except Fault α → Except Fault α → Prop :=
  Agree Fault.Alike fun x y => y = x

theorem SameOutcome.refl {α : Type} (r : Except Fault α) : SameOutcome r r := by
  refine Agree.refl Fault.Alike.refl ?_ r
  intro x
  rfl

/-! ## the header and statements in other letters -/

namespace Source

theorem checkHeader_recased {t t' : Text} (h : t.sameUpToCase t' = true) (n : Nat) :
    SameOutcome (checkHeader n t) (checkHeader n t') := by
  have hsame : t'.sameUpToCase header = t.sameUpToCase header := by
    rw [sameUpToCase_iff] at h
    rw [sameUpToCase, sameUpToCase, h]
  unfold checkHeader
  rw [hsame]
  split
  · exact .ok rfl
  · exact .error (.wrongHeader n header h)

/-- how a line and a varied line are read -/
theorem Varied.agree {R S : Text → Text → Prop} {l l' : Bytes} (h : Varied R l l')
    (hS : ∀ t, S t t) (hR : ∀ t t', R t t' → S (chomp t) (chomp t')) (n : Nat) :
    Agree Fault.Alike S (readAfter n l) (readAfter n l') := by
  rcases h with rfl | ⟨t, t', rfl, rfl, ht⟩
  · exact .refl Fault.Alike.refl hS _
  · rw [readAfter_encode, readAfter_encode]
    exact .ok (hR t t' ht)

namespace Statement

/-- the same statement, with the opcode in another letter case -/
structure Recased (s s' : Statement) : Prop where
  line : s'.line = s.line
  opcode : s.opcode.sameUpToCase s'.opcode = true
  operands : s'.operands = s.operands

theorem Recased.check {s s' : Statement} (h : Recased s s') : SameOutcome s.check s'.check := by
  have hl : Table.lookup? s'.opcode = Table.lookup? s.opcode := (Table.lookup?_congr h.opcode).symm
  cases he : Table.lookup? s.opcode with
  | none =>
    rw [check_of_unknown he, check_of_unknown (hl.trans he), h.line]
    exact .error (.unknownOpcode s.line h.opcode)
  | some e =>
    -- from here on the opcode is the one of the entry
    by_cases hn : s.operands.length = e.arity
    · have hn' : s'.operands.length = e.arity := by rw [h.operands, hn]
      rw [check_of_entry he hn, check_of_entry (hl.trans he) hn', h.line, h.operands]
      exact .refl _
    · have hn' : s'.operands.length ≠ e.arity := by rw [h.operands]; exact hn
      rw [check_of_count he hn, check_of_count (hl.trans he) hn', h.line, h.operands]
      exact .refl _

theorem ofLine?_recased {t t' : Text} (h : OpcodeRecased t t') (n : Nat) :
    ∃ s s', ofLine? n t = some s ∧ ofLine? n t' = some s' ∧ Recased s s' := by
  obtain ⟨opcode, opcode', operands, hsame, hf, hf'⟩ := h
  exact ⟨⟨n, opcode, operands⟩, ⟨n, opcode', operands⟩, ofLine?_eq_some_iff.mpr ⟨rfl, hf⟩,
    ofLine?_eq_some_iff.mpr ⟨rfl, hf'⟩, rfl, hsame, rfl⟩

end Statement

end Source

/-! ## what a line in other letters brings -/

/-- the same effect, or faults that are alike -/
abbrev SameEffect : Except Fault Effect → Except Fault Effect → Prop :=
  Agree Fault.Alike Effect.Same

theorem SameEffect.refl (r : Except Fault Effect) : SameEffect r r :=
  Agree.refl Fault.Alike.refl Effect.Same.refl r

namespace Phase

theorem effect_preamble_recased {t t' : Text} (h : CodeRecased t t') (n : Nat) :
    SameEffect (preamble.effect n t) (preamble.effect n t') := by
  by_cases hc : code t = []
  · rw [effect_of_code_eq_nil hc, effect_of_code_eq_nil ((eq_nil_iff_of_sameUpToCase h).mp hc)]
    exact .refl _
  · rw [effect_preamble hc, effect_preamble ((eq_nil_iff_of_sameUpToCase h).not.mp hc)]
    exact (checkHeader_recased h n).map fun _ _ _ => .header (code t) (code t')

theorem effect_body_recased {t t' : Text} (h : OpcodeRecased t t') (n : Nat) :
    SameEffect (body.effect n t) (body.effect n t') := by
  obtain ⟨s, s', hs, hs', hrecased⟩ := Statement.ofLine?_recased h n
  rw [effect_body hs, effect_body hs']
  refine hrecased.check.map ?_
  rintro x _ rfl
  exact .refl _

/-- What a line in other letters brings.  Before the header it is the whole code that may be
changed, and after it the opcode. -/
theorem effect_recased {phase phase' : Phase} (hp : phase.Matches Fault.Alike phase')
    (hrest : ¬ phase.Stopped) {l l' : Bytes} (hcode : phase = .preamble → Varied CodeRecased l l')
    (hopcode : phase = .body → Varied OpcodeRecased l l') (n m : Nat) :
    Agree Fault.Alike (fun t t' => SameEffect (phase.effect m t) (phase'.effect m t'))
      (readAfter n l) (readAfter n l') := by
  cases hp with
  | preamble =>
    refine (hcode rfl).agree (fun t => .refl _) (fun t t' ht => ?_) n
    exact effect_preamble_recased ht.chomp m
  | body =>
    refine (hopcode rfl).agree (fun t => .refl _) (fun t t' ht => ?_) n
    exact effect_body_recased ht.chomp m
  | stopped => exact absurd ⟨_, rfl⟩ hrest

end Phase

/-! ## the two machines -/

namespace Analysis

/-- the same place and the same program, or faults that are alike -/
abbrev Alike : Analysis → Analysis → Prop := Tracks 0 id Fault.Alike

section

variable {a a' : Analysis}

theorem Alike.refl (a : Analysis) : Alike a a := ⟨rfl, .refl Fault.Alike.refl a.phase, rfl⟩

/-- **One more line, and the same line in other letters.** -/
theorem Alike.read (h : Alike a a') {l l' : Bytes}
    (hcode : a.phase = .preamble → Varied CodeRecased l l')
    (hopcode : a.phase = .body → Varied OpcodeRecased l l') : Alike (a.read l) (a'.read l') := by
  refine Tracks.read (fun _ _ _ => rfl) h fun hrest => ?_
  rw [h.line_succ, h.line]
  exact Phase.effect_recased h.phase hrest hcode hopcode a.line (a.line + 1)

/-- a line without code does not lead to the body -/
theorem phase_read_ne_body (ha : a.phase ≠ .body) {l : Bytes} (hl : ¬ HasCode l) :
    (a.read l).phase ≠ .body := by
  by_cases hs : a.phase.Stopped
  · obtain ⟨f, hf⟩ := hs
    rw [read_of_stopped hf]
    exact ha
  · rw [read_eq_turn hs]
    by_cases hu : ∀ t, l ≠ encode t
    · rw [readAfter_of_not_text hu]
      exact Phase.noConfusion
    · obtain ⟨t, ht⟩ := Classical.not_forall.mp hu
      obtain rfl : l = encode t := Classical.not_not.mp ht
      have hc : code t = [] := Classical.byContradiction fun hc => hl ⟨t, rfl, hc⟩
      rw [readAfter_encode, turn, Phase.effect_congr (code_chomp t),
        Phase.effect_of_code_eq_nil hc]
      exact ha

/-- lines after the first one with code -/
theorem Alike.readAll_opcodes (h : Alike a a') {ls ls' : List Bytes}
    (hls : List.Forall₂ RecasedOpcode ls ls') : Alike (a.readAll ls) (a'.readAll ls') := by
  induction hls generalizing a a' with
  | nil => exact h
  | cons hl _ ih => exact ih (h.read (fun _ => hl.codeRecased) fun _ => hl.opcodeRecased)

/-- **The two machines stay alike.** -/
theorem Alike.readAll (h : Alike a a') (ha : a.phase ≠ .body) {ls ls' : List Bytes}
    (hls : RecasedLines ls ls') : Alike (a.readAll ls) (a'.readAll ls') := by
  induction hls generalizing a a' with
  | nil => exact h
  | skip hl _ ih => exact ih (h.read (fun _ => .inl rfl) fun _ => .inl rfl) (phase_read_ne_body ha hl)
  | first _ hl hls =>
    have hfirst := h.read (fun _ => hl.codeRecased) fun hbody => absurd hbody ha
    exact hfirst.readAll_opcodes hls

theorem Alike.result (h : Alike a a') : SameOutcome a.result a'.result :=
  Tracks.result h (.refl _)

end

end Analysis

/-! ## the word that a fault shows -/

namespace Source.Statement

theorem head?_fields {n : Nat} {t : Text} {s : Statement} (h : ofLine? n t = some s) :
    (fields (code t)).head? = some s.opcode := by
  have hne : code t ≠ [] := by
    intro hnil
    rw [ofLine?_of_code_eq_nil hnil] at h
    cases h
  have hf := (ofLine?_eq_some_iff.mp h).2
  rw [maxFields, fieldsUpTo_add_two 2 hne] at hf
  rw [fields_eq_cons (isTrimmed_code t).1 hne, List.head?_cons, (List.cons.inj hf).1]

theorem Wrong.quotes {s : Statement} {f : Fault} {n : Nat} (h : s.Wrong f n)
    {before after : List Bytes} {t : Text} (hs : ofLine? (before.length + 1) t = some s) :
    f.Quotes (before ++ encode t :: after) := by
  cases h with
  | opcode => exact ⟨before, t, after, rfl, ofLine?_line hs, head?_fields hs⟩
  | count => trivial
  | operand => trivial

end Source.Statement

theorem parse_quotes {bs : Bytes} {f : Fault} (h : parse bs = .error f) :
    f.Quotes (breakLines bs) := by
  rcases parse_eq_error_iff.mp h with ⟨-, rfl⟩ | ⟨before, l, after, o, n, hls, -, hl⟩
  · trivial
  · rw [hls]
    cases hl with
    | unreadable => trivial
    | wrongHeader ht => exact ⟨before, _, after, by rw [ht], rfl, rfl⟩
    | statement ht _ hs hw =>
      rw [ht]
      exact hw.quotes hs

/-! ## the words that count letter by letter -/

/-- the operands on the lines after the header, as they are spelled -/
def operandWords (bs : Bytes) : List (List Text) :=
  (((breakLines bs).filterMap lineCode?).filter (· ≠ [])).tail.map fun c => (fields c).tail

theorem filterMap_lineCode?_encode (ts : List Text) :
    (ts.map encode).filterMap lineCode? = ts.map code := by
  have hcode : lineCode? ∘ encode = some ∘ code := by
    funext t
    show (decode? (encode t)).map code = some (code t)
    rw [decode?_encode, Option.map_some]
  rw [List.filterMap_map, hcode, List.filterMap_eq_map]

/-- the code of a source whose header is on the line `hd` -/
theorem codes_of_lines {bs : Bytes} {before after : List Text} {hd : Text}
    (hls : breakLines bs = (before ++ hd :: after).map encode) (hb : ∀ t ∈ before, code t = [])
    (hh : code hd ≠ []) : ((breakLines bs).filterMap lineCode?).filter (· ≠ [])
      = code hd :: (after.filter fun t => code t ≠ []).map code := by
  have hbefore : (before.map code).filter (· ≠ []) = [] := by
    rw [List.filter_eq_nil_iff, List.forall_mem_map]
    intro t ht
    rw [hb t ht]
    decide
  rw [hls, filterMap_lineCode?_encode, List.map_append, List.map_cons, List.filter_append, hbefore,
    List.nil_append, List.filter_cons_of_pos (by exact decide_eq_true hh), List.filter_map]
  rfl

/-- **The operands of a program are those of its source, letter by letter.** -/
theorem operandWords_of_parse {bs : Bytes} {p : Program} (h : parse bs = .ok p) :
    operandWords bs = p.toList.map fun i => i.arguments.map Argument.spelling := by
  obtain ⟨xs, hp, rfl⟩ := parse_eq_ok_iff.mp h
  obtain ⟨before, hd, after, hls, hb, hh, ha⟩ := hp.exists_forall₂_says
  have hspelled : (Program.ofList xs).toList.map (fun i => i.arguments.map Argument.spelling)
      = xs.map fun x => x.2.map Argument.spelling := by
    rw [Program.toList_ofList, List.map_map]
    show (xs.zipIdx 1).map ((fun x => x.2.map Argument.spelling) ∘ Prod.fst) = _
    rw [← List.map_map, List.zipIdx_map_fst]
  have hwords : List.Forall₂ Eq (xs.map fun x => x.2.map Argument.spelling)
      ((after.filter fun t => code t ≠ []).map fun t => (fields (code t)).tail) := by
    rw [List.forall₂_map_left_iff, List.forall₂_map_right_iff]
    refine ha.imp fun x t hx => ?_
    obtain ⟨f, ts, hf, -, hts, -⟩ := hx.mirrors 0
    rw [hf, List.tail_cons]
    exact hts
  rw [List.forall₂_eq_eq_eq] at hwords
  rw [operandWords, codes_of_lines hls hb (code_ne_nil_of_header hh), List.tail_cons, List.map_map,
    hspelled, hwords]
  rfl

/-- **Letter case is meaningless in the header and in opcodes, and in no other word.** -/
theorem parse_recased (bs bs' : Bytes) :
    (RecasedSource bs bs' →
      (∃ p p', parse bs = .ok p ∧ parse bs' = .ok p' ∧ p' = p ∧ p'.document = p.document) ∨
        ∃ f f', parse bs = .error f ∧ parse bs' = .error f' ∧ f.Alike f' ∧
          f.Quotes (breakLines bs) ∧ f'.Quotes (breakLines bs')) ∧
      ∀ p p', parse bs = .ok p → parse bs' = .ok p' → operandWords bs ≠ operandWords bs' →
        p ≠ p' := by
  refine ⟨?_, ?_⟩
  · intro h
    have halike : Analysis.Alike (Analysis.ofSource bs) (Analysis.ofSource bs') :=
      (Analysis.Alike.refl .start).readAll Phase.noConfusion h.lines
    rcases halike.result.ok_or_error with ⟨p, p', hp, hp', rfl⟩ | ⟨f, f', hf, hf', hff⟩
    · exact .inl ⟨_, _, hp, hp', rfl, rfl⟩
    · exact .inr ⟨f, f', hf, hf', hff, parse_quotes hf, parse_quotes hf'⟩
  · intro p p' hp hp' hne heq
    rw [operandWords_of_parse hp, operandWords_of_parse hp', heq] at hne
    exact hne rfl

/-- A source in small letters has the fault of the same source in capitals, each with its own
opcode; two sources that differ in the case of an operand are two programs. -/
theorem parse_recased_fault :
    let upper := encode "# a\n\t.IPPCODE22 \nBREAK#\n FROB int@1".toList
    let lower := encode "# a\n\t.ippcode22 \nbreak#\n frob int@1".toList
    let f := Fault.unknownOpcode 4 "FROB".toList
    let f' := Fault.unknownOpcode 4 "frob".toList
    let one := encode ".IPPcode22\nDEFVAR GF@a".toList
    let other := encode ".IPPcode22\nDEFVAR GF@A".toList
    let p := Program.ofList [("DEFVAR".toList, [.var .globals "a".toList])]
    let p' := Program.ofList [("DEFVAR".toList, [.var .globals "A".toList])]
    (RecasedSource upper lower ∧ parse upper = .error f ∧ parse lower = .error f' ∧
        f.Alike f' ∧ f.Quotes (breakLines upper) ∧ f'.Quotes (breakLines lower)) ∧
      parse one = .ok p ∧ parse other = .ok p' ∧ operandWords one ≠ operandWords other ∧
        p ≠ p' := by
  intro upper lower f f' one other p p'
  have hblank : ¬ HasCode (encode "# a\n".toList) := Blank.not_hasCode ⟨_, rfl, by decide⟩
  have hheader : RecasedCode (encode "\t.IPPCODE22 \n".toList)
      (encode "\t.ippcode22 \n".toList) :=
    .inr ⟨_, rfl, by decide, ['\t'], " \n".toList, ".ippcode22".toList, by decide, by decide,
      by decide, by decide⟩
  have hbreak : RecasedOpcode (encode "BREAK#\n".toList) (encode "break#\n".toList) :=
    .inr ⟨_, "BREAK".toList, [], rfl, by decide, [], "#\n".toList, "break".toList, by decide,
      by decide, by decide, by decide⟩
  have hfrob : RecasedOpcode (encode " FROB int@1".toList) (encode " frob int@1".toList) :=
    .inr ⟨_, "FROB".toList, ["int@1".toList], rfl, by decide, [' '], " int@1".toList,
      "frob".toList, by decide, by decide, by decide, by decide⟩
  have hrecased : RecasedSource upper lower :=
    ⟨_, _, areLines_iff.mpr (by decide), .skip hblank (.first ⟨_, rfl, by decide⟩ hheader
      (.cons hbreak (.cons hfrob .nil))), by decide⟩
  have hupper : parse upper = .error f := by rfl
  have hlower : parse lower = .error f' := by rfl
  have hone : parse one = .ok p := by rfl
  have hother : parse other = .ok p' := by rfl
  have hwords : operandWords one ≠ operandWords other := by decide
  refine ⟨⟨hrecased, hupper, hlower, ?_⟩, hone, hother, hwords,
    (parse_recased one other).2 p p' hone hother hwords⟩
  rcases (parse_recased upper lower).1 hrecased with ⟨q, -, hq, -⟩ | ⟨g, g', hg, hg', h⟩
  · rw [hupper] at hq
    cases hq
  · obtain rfl := Except.error.inj (hg.symm.trans hupper)
    obtain rfl := Except.error.inj (hg'.symm.trans hlower)
    exact h

end Ippcode
