import Ippcode.Proofs.Analysis.Canonical

/-!
# The characters of a document

Which characters a document is made of, and what XML 1.0 says of them.

* `Xml.IsChar c`        the characters of XML 1.0;
* `Xml.IsPrintable c`   a line feed and the printable ASCII characters, which is all that documents
                        are made of but for what the program itself has brought along
                        (`Program.mem_document_iff`);
* `parse_document_chars`   a program that was read brings along U+FFFE and U+FFFF at worst, in a
                        string, and then they stand in its document.
-/

namespace Ippcode

open Text Source

namespace Xml

/-! ## characters -/

/-- `Char` of XML 1.0 -/
def IsChar (c : Char) : Prop :=
  c = '\t' ∨ c = '\n' ∨ c = '\r' ∨ (0x20 ≤ c.toNat ∧ c.toNat ≤ 0xD7FF) ∨
    (0xE000 ≤ c.toNat ∧ c.toNat ≤ 0xFFFD) ∨ (0x10000 ≤ c.toNat ∧ c.toNat ≤ 0x10FFFF)

instance (c : Char) : Decidable (IsChar c) := inferInstanceAs (Decidable (_ ∨ _))

def IsPrintable (c : Char) : Prop := c = '\n' ∨ (0x20 ≤ c.toNat ∧ c.toNat ≤ 0x7E)

instance (c : Char) : Decidable (IsPrintable c) := inferInstanceAs (Decidable (_ ∨ _))

theorem IsPrintable.isChar {c : Char} (h : IsPrintable c) : IsChar c := by
  rcases h with h | ⟨hlo, hhi⟩
  · exact .inr (.inl h)
  · exact .inr (.inr (.inr (.inl ⟨hlo, by omega⟩)))

theorem isPrintable_of_between {a b c : Char} (ha : 0x20 ≤ a.toNat) (hb : b.toNat ≤ 0x7E)
    (hlo : a ≤ c) (hhi : c ≤ b) : IsPrintable c :=
  .inr ⟨Nat.le_trans ha hlo, Nat.le_trans hhi hb⟩

theorem isPrintable_of_isDigit {c : Char} (h : c.isDigit = true) : IsPrintable c := by
  obtain ⟨hlo, hhi⟩ := Grammar.isDigit_iff.mp h
  exact isPrintable_of_between (by decide) (by decide) hlo hhi

theorem isPrintable_of_isNameChar {c : Char} (h : Spelling.isNameChar c = true) :
    IsPrintable c := by
  have hmarks : ∀ d ∈ ['_', '-', '$', '&', '%', '*', '!', '?'], IsPrintable d := by decide
  rcases Grammar.isNameChar_iff.mp h with (⟨hlo, hhi⟩ | ⟨hlo, hhi⟩) | ⟨hlo, hhi⟩ | hm
  · exact isPrintable_of_between (by decide) (by decide) hlo hhi
  · exact isPrintable_of_between (by decide) (by decide) hlo hhi
  · exact isPrintable_of_between (by decide) (by decide) hlo hhi
  · exact hmarks c hm

/-- Of the characters that stand for themselves in a string, all but two are characters of XML. -/
theorem noncharacter_of_isPlain {c : Char} (h : Spelling.isPlain c = true) (hn : ¬ IsChar c) :
    c = '\uFFFE' ∨ c = '\uFFFF' := by
  have hcontrol : ¬ (c.toNat ≤ 0x1F ∨ 0x7F ≤ c.toNat ∧ c.toNat ≤ 0x9F) := by
    rw [← isControl_iff, (Grammar.isPlain_iff.mp h).2.1]
    exact Bool.false_ne_true
  have hvalid : c.toNat < 0xD800 ∨ (0xDFFF < c.toNat ∧ c.toNat < 0x110000) := c.valid
  have htwo : c.toNat = 0xFFFE ∨ c.toNat = 0xFFFF := by
    unfold IsChar at hn
    omega
  exact htwo.imp Char.toNat_inj.mp Char.toNat_inj.mp

/-! ## markup -/

section

variable {c : Char}

theorem notMem_of_printable (hc : ¬ IsPrintable c) {t : Text} (ht : ∀ d ∈ t, IsPrintable d) :
    c ∉ t := fun hm => hc (ht c hm)

theorem mem_escapeChar_iff (hc : ¬ IsPrintable c) (d : Char) : c ∈ escapeChar d ↔ c = d := by
  by_cases hd : isSpecial d = false
  · rw [escapeChar_of_not_special hd, List.mem_singleton]
  · -- the character and its entity are printable, so `c` is neither
    have hboth : IsPrintable d ∧ ∀ e ∈ escapeChar d, IsPrintable e := by
      rcases isSpecial_iff.mp (by simpa using hd) with rfl | rfl | rfl | rfl | rfl
      all_goals decide
    refine iff_of_false (notMem_of_printable hc hboth.2) ?_
    rintro rfl
    exact hc hboth.1

theorem mem_escape_iff (hc : ¬ IsPrintable c) {t : Text} : c ∈ escape t ↔ c ∈ t := by
  simp only [escape_eq_flatMap, List.mem_flatMap, mem_escapeChar_iff hc, exists_eq_right']

theorem mem_attributes_iff (hc : ¬ IsPrintable c) {as : List (Text × Text)} :
    c ∈ attributes as ↔ ∃ a ∈ as, c ∈ a.1 ∨ c ∈ a.2 := by
  have hspace : c ≠ ' ' := by rintro rfl; exact hc (by decide)
  have hequals : c ≠ '=' := by rintro rfl; exact hc (by decide)
  have hquote : c ≠ '"' := by rintro rfl; exact hc (by decide)
  simp only [attributes, List.mem_flatMap, List.mem_cons, List.mem_append, List.not_mem_nil,
    hspace, hequals, hquote, false_or, or_false]

/-- a tag, up to how it ends -/
theorem mem_tag_iff (hc : ¬ IsPrintable c) {name e : Text} {as : List (Text × Text)}
    (he : ∀ d ∈ e, IsPrintable d) : c ∈ '<' :: (name ++ attributes as ++ e) ↔
      c ∈ name ∨ ∃ a ∈ as, c ∈ a.1 ∨ c ∈ a.2 := by
  have hopen : c ≠ '<' := by rintro rfl; exact hc (by decide)
  rw [List.mem_cons, List.mem_append, List.mem_append, mem_attributes_iff hc,
    or_iff_right hopen, or_iff_left (notMem_of_printable hc he)]

theorem mem_startTag_iff (hc : ¬ IsPrintable c) {name : Text} {as : List (Text × Text)} :
    c ∈ startTag name as ↔ c ∈ name ∨ ∃ a ∈ as, c ∈ a.1 ∨ c ∈ a.2 :=
  mem_tag_iff hc (e := ['>']) (by decide)

theorem mem_emptyTag_iff (hc : ¬ IsPrintable c) {name : Text} {as : List (Text × Text)} :
    c ∈ emptyTag name as ↔ c ∈ name ∨ ∃ a ∈ as, c ∈ a.1 ∨ c ∈ a.2 :=
  mem_tag_iff hc (e := ['/', '>']) (by decide)

theorem mem_endTag_iff (hc : ¬ IsPrintable c) {name : Text} : c ∈ endTag name ↔ c ∈ name := by
  have hopen : c ∉ ['<', '/'] := notMem_of_printable hc (by decide)
  have hclose : c ∉ ['>'] := notMem_of_printable hc (by decide)
  have hshape : endTag name = ['<', '/'] ++ (name ++ ['>']) := rfl
  rw [hshape, List.mem_append, List.mem_append, or_iff_right hopen, or_iff_left hclose]

end

end Xml

/-! ## documents -/

namespace Program

open Xml

section

variable {c : Char}

theorem printable_decimal (n : Nat) : ∀ d ∈ Text.decimal n, IsPrintable d := by
  intro d hd
  exact isPrintable_of_isDigit (Nat.isDigit_of_mem_toDigits (by decide) (by decide) hd)

theorem printable_argumentName (k : Nat) : ∀ d ∈ argumentName k, IsPrintable d :=
  List.forall_mem_append.mpr ⟨by decide, printable_decimal k⟩

theorem printable_kind (a : Argument) : ∀ d ∈ a.kind, IsPrintable d := by
  cases a <;> simp only [Argument.kind] <;> decide

theorem mem_argumentLine_iff (hc : ¬ IsPrintable c) (k : Nat) (a : Argument) :
    c ∈ argumentLine k a ↔ c ∈ a.text := by
  have hindent : c ∉ "    ".toList := notMem_of_printable hc (by decide)
  have hend : c ∉ ['\n'] := notMem_of_printable hc (by decide)
  have hname : c ∉ argumentName k := notMem_of_printable hc (printable_argumentName k)
  have htype : c ∉ "type".toList := notMem_of_printable hc (by decide)
  have hkind : c ∉ a.kind := notMem_of_printable hc (printable_kind a)
  have hstart : c ∉ startTag (argumentName k) [("type".toList, a.kind)] := by
    rw [mem_startTag_iff hc]
    simp only [List.mem_singleton, exists_eq_left, hname, htype, hkind, or_self,
      not_false_eq_true]
  show c ∈ "    ".toList ++ startTag (argumentName k) [("type".toList, a.kind)]
    ++ escape a.text ++ endTag (argumentName k) ++ ['\n'] ↔ _
  rw [List.mem_append, List.mem_append, List.mem_append, List.mem_append, mem_escape_iff hc,
    mem_endTag_iff hc, or_iff_right hindent, or_iff_right hstart, or_iff_left hname,
    or_iff_left hend]

theorem mem_argumentLines_iff (hc : ¬ IsPrintable c) (k : Nat) (as : List Argument) :
    c ∈ argumentLines k as ↔ ∃ a ∈ as, c ∈ a.text := by
  induction as generalizing k with
  | nil => rw [argumentLines_nil]; simp
  | cons a as ih =>
    rw [argumentLines_cons, List.mem_append, mem_argumentLine_iff hc, ih, List.exists_mem_cons_iff]

theorem mem_instructionLines_iff (hc : ¬ IsPrintable c) (i : Instruction) :
    c ∈ instructionLines i ↔ c ∈ i.opcode ∨ ∃ a ∈ i.arguments, c ∈ a.text := by
  have hindent : c ∉ "  ".toList := notMem_of_printable hc (by decide)
  have hend : c ∉ ['\n'] := notMem_of_printable hc (by decide)
  have hname : c ∉ "instruction".toList := notMem_of_printable hc (by decide)
  have hwords : c ∉ "order".toList ∧ c ∉ "opcode".toList :=
    ⟨notMem_of_printable hc (by decide), notMem_of_printable hc (by decide)⟩
  have horder : c ∉ Text.decimal i.order := notMem_of_printable hc (printable_decimal i.order)
  have hattributes : (∃ a ∈ [("order".toList, Text.decimal i.order), ("opcode".toList, i.opcode)],
      c ∈ a.1 ∨ c ∈ a.2) ↔ c ∈ i.opcode := by
    rw [List.exists_mem_cons_iff, List.exists_mem_cons_iff]
    simp only [hwords, horder, List.not_mem_nil, false_and, exists_false, or_false, false_or]
  by_cases hargs : i.arguments.isEmpty = true
  · rw [instructionLines_of_isEmpty hargs, List.mem_append, List.mem_append, mem_emptyTag_iff hc,
      hattributes, or_iff_right hindent, or_iff_right hname, or_iff_left hend,
      List.isEmpty_iff.mp hargs]
    simp
  · rw [instructionLines_of_not_isEmpty hargs, List.mem_append, List.mem_append, List.mem_append,
      List.mem_append, List.mem_append, List.mem_append, mem_startTag_iff hc, hattributes,
      mem_argumentLines_iff hc, mem_endTag_iff hc, or_iff_right hindent, or_iff_right hname,
      or_iff_left hend, or_iff_left hindent, or_iff_left hname, or_iff_left hend]

/-- **Whatever is not printable ASCII comes from an opcode or an argument, and stands in the
document as it is.** -/
theorem mem_document_iff (hc : ¬ IsPrintable c) (p : Program) :
    c ∈ p.document ↔ ∃ i ∈ p.toList, c ∈ i.opcode ∨ ∃ a ∈ i.arguments, c ∈ a.text := by
  have hdecl : c ∉ declaration := notMem_of_printable hc (by decide)
  have hend : c ∉ ['\n'] := notMem_of_printable hc (by decide)
  have hname : c ∉ "program".toList := notMem_of_printable hc (by decide)
  have hattributes : ¬ ∃ a ∈ [("language".toList, language)], c ∈ a.1 ∨ c ∈ a.2 := by
    have hwords : c ∉ "language".toList ∧ c ∉ language :=
      ⟨notMem_of_printable hc (by decide), notMem_of_printable hc (by decide)⟩
    simp only [List.mem_singleton, exists_eq_left, hwords, or_self, not_false_eq_true]
  by_cases he : p.isEmpty = true
  · rw [document_of_isEmpty he, List.mem_append, List.mem_append, mem_emptyTag_iff hc,
      or_iff_right hdecl, or_iff_left hend, or_iff_right hname, (isEmpty_iff p).mp he]
    exact iff_of_false hattributes (by simp)
  · rw [document_of_not_isEmpty he, List.mem_append, List.mem_append, List.mem_append,
      List.mem_append, List.mem_append, mem_startTag_iff hc, mem_endTag_iff hc,
      or_iff_right hdecl, or_iff_right hname, or_iff_right (not_or_intro hattributes hend),
      or_iff_left hname, or_iff_left hend, List.mem_flatMap]
    simp only [mem_instructionLines_iff hc]

end

end Program

/-! ## programs that were read -/

section

variable {c : Char}

theorem Table.printable_opcode : ∀ e ∈ entries, ∀ c ∈ e.opcode, Xml.IsPrintable c := by decide

/-- what a class admits is printable, but for the strings -/
theorem Argument.mem_text_iff {a : Argument} (h : a.IsWellSpelled) (hc : ¬ Xml.IsPrintable c) :
    c ∈ a.text ↔ ∃ l, a = string l ∧ c ∈ l := by
  have hfixed : ∀ {t : Text}, (∀ d ∈ t, Xml.IsPrintable d) → (∀ l, a ≠ string l) →
      (c ∈ t ↔ ∃ l, a = string l ∧ c ∈ l) :=
    fun ht hne => iff_of_false (Xml.notMem_of_printable hc ht) fun ⟨l, hl, _⟩ => hne l hl
  have hname : ∀ {n : Text}, Spelling.isIdentifier n = true → ∀ d ∈ n, Xml.IsPrintable d :=
    fun hn d hd => Xml.isPrintable_of_isNameChar (Spelling.isNameChar_of_isIdentifier hn d hd)
  cases a with
  | string l => exact ⟨fun hm => ⟨l, rfl, hm⟩, fun ⟨l', hl, hm⟩ => (string.inj hl) ▸ hm⟩
  | var frame name =>
    refine hfixed (List.forall_mem_append.mpr ⟨?_, List.forall_mem_cons.mpr ⟨?_, hname h⟩⟩)
      fun l hl => by cases hl
    · cases frame <;> decide
    · decide
  | integer l =>
    refine hfixed (fun d hd => ?_) fun l hl => by cases hl
    rcases Spelling.isDigit_or_sign_of_isIntegerLiteral h d hd with hd | rfl | rfl
    · exact Xml.isPrintable_of_isDigit hd
    · decide
    · decide
  | boolean b => exact hfixed (by cases b <;> decide) fun l hl => by cases hl
  | nil => exact hfixed (by decide) fun l hl => by cases hl
  | label name => exact hfixed (hname h) fun l hl => by cases hl
  | type v => exact hfixed (by cases v <;> decide) fun l hl => by cases hl

theorem Spelling.noncharacter_of_isStringLiteral {l : Text} (h : isStringLiteral l = true)
    (hm : c ∈ l) (hn : ¬ Xml.IsChar c) : c = '\uFFFE' ∨ c = '\uFFFF' := by
  rcases isPlain_or_escape_of_isStringLiteral h c hm with hp | hd | rfl
  · exact Xml.noncharacter_of_isPlain hp hn
  · exact absurd (Xml.isPrintable_of_isDigit hd).isChar hn
  · exact absurd (by decide) hn

/-- the arguments of a program that was read are as their classes want them, and its opcodes are
those of the table -/
theorem isWellSpelled_of_parse {bs : Bytes} {p : Program} (h : parse bs = .ok p) :
    ∀ i ∈ p.toList, (∀ c ∈ i.opcode, Xml.IsPrintable c) ∧
      ∀ a ∈ i.arguments, a.IsWellSpelled := by
  obtain ⟨xs, hxs, rfl⟩ := exists_isAccepted h
  rw [Program.toList_ofList]
  intro i hi
  obtain ⟨y, hy, rfl⟩ := List.mem_map.mp hi
  obtain ⟨e, he, hop, has⟩ := hxs y.1 (List.fst_mem_of_mem_zipIdx hy)
  refine ⟨?_, OperandClass.isWellSpelled_of_forall₂ has⟩
  rw [← hop]
  exact Table.printable_opcode e he

/-- **A document holds characters that XML does not have exactly when the program has a string with
U+FFFE or U+FFFF in it, and then it holds just these.** -/
theorem parse_document_chars {bs : Bytes} {p : Program} (h : parse bs = .ok p) (c : Char) :
    (c ∈ p.document ∧ ¬ Xml.IsChar c) ↔ (c = '\uFFFE' ∨ c = '\uFFFF') ∧
      ∃ i ∈ p.toList, ∃ l, Argument.string l ∈ i.arguments ∧ c ∈ l := by
  have hwell := isWellSpelled_of_parse h
  refine ⟨?_, ?_⟩
  · intro hdoc
    obtain ⟨hm, hn⟩ := hdoc
    have hc : ¬ Xml.IsPrintable c := fun hp => hn hp.isChar
    rw [Program.mem_document_iff hc] at hm
    obtain ⟨i, hi, hop | ⟨a, ha, ht⟩⟩ := hm
    · exact absurd hop (Xml.notMem_of_printable hc (hwell i hi).1)
    · obtain ⟨l, rfl, hl⟩ := (Argument.mem_text_iff ((hwell i hi).2 a ha) hc).mp ht
      exact ⟨Spelling.noncharacter_of_isStringLiteral ((hwell i hi).2 _ ha) hl hn, i, hi, l, ha, hl⟩
  · intro hstring
    obtain ⟨htwo, i, hi, l, ha, hl⟩ := hstring
    have hn : ¬ Xml.IsChar c := by rcases htwo with rfl | rfl <;> decide
    have hc : ¬ Xml.IsPrintable c := fun hp => hn hp.isChar
    exact ⟨(Program.mem_document_iff hc p).mpr ⟨i, hi, .inr ⟨_, ha, hl⟩⟩, hn⟩

/-- both of them in one string -/
theorem parse_document_chars_noncharacters :
    let bs := Utf8.encode ".IPPcode22\nWRITE string@\uFFFE\uFFFF".toList
    let p := Program.ofList [("WRITE".toList, [.string ['\uFFFE', '\uFFFF']])]
    parse bs = .ok p ∧ ('\uFFFF' ∈ p.document ∧ ¬ Xml.IsChar '\uFFFF') := by
  intro bs p
  have hparse : parse bs = .ok p := by decide +kernel
  refine ⟨hparse, (parse_document_chars hparse '\uFFFF').mpr ⟨.inr rfl, ?_⟩⟩
  exact ⟨⟨1, "WRITE".toList, [.string ['\uFFFE', '\uFFFF']]⟩, List.mem_singleton_self _, _,
    List.mem_singleton_self _, by decide⟩

/-- A source that is accepted may have a document that is no XML. -/
theorem exists_document_not_isChar : ¬ ∀ (bs : Bytes) (p : Program), parse bs = .ok p →
    ∀ c ∈ p.document, Xml.IsChar c := by
  intro h
  have hparse : parse (Utf8.encode ".IPPcode22\nWRITE string@\uFFFE\n".toList)
      = .ok (Program.ofList [("WRITE".toList, [.string ['\uFFFE']])]) := by decide +kernel
  have hchar := h _ _ hparse '\uFFFE' (by decide)
  exact absurd hchar (by decide)

end

end Ippcode
