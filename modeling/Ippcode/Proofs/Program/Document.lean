import Ippcode.Program
import Ippcode.Operand.Class
import Ippcode.Proofs.Xml.Layout

/-!
# The document of a program, read back

* `programElement xs`   what a reader has to find in the document of a program: its opcodes and
                        arguments, in order and numbered;
* `recover? e`          the opcodes and arguments in such an element.

`read?_document`: the document is read as that element.  Nothing is asked of the arguments, and of
an opcode only that it needs no escapes, for it is written as it is.
-/

namespace Ippcode

open Xml

/-! ## arguments from their kind and their text -/

namespace Argument

def ofKind? (kind text : Text) : Option Argument :=
  if kind = "var".toList then
    (tagged? text).bind fun p => (Frame.ofTag? p.1).map fun f => var f p.2
  else if kind = "int".toList then some (integer text)
  else if kind = "string".toList then some (string text)
  else if kind = "bool".toList then
    if text = "true".toList then some (boolean true)
    else if text = "false".toList then some (boolean false)
    else none
  else if kind = "nil".toList then if text = "nil".toList then some nil else none
  else if kind = "label".toList then some (label text)
  else if kind = "type".toList then (ValueType.ofName? text).map type
  else none

/-- The kind and the text of an argument tell everything about it. -/
theorem ofKind?_kind (a : Argument) : ofKind? a.kind a.text = some a := by
  cases a with
  | var f name =>
    have htag : '@' ∉ f.tag := by cases f <;> decide
    show (tagged? (f.tag ++ '@' :: name)).bind _ = _
    rw [tagged?_append htag, Option.bind_some, Frame.ofTag?_tag]
    rfl
  | integer l => rfl
  | string l => rfl
  | boolean b => cases b <;> rfl
  | nil => rfl
  | label name => rfl
  | type v =>
    show (ValueType.ofName? v.name).map type = _
    rw [ValueType.ofName?_name]
    rfl

theorem plain_kind (a : Argument) : ∀ c ∈ a.kind, isSpecial c = false := by
  cases a <;> simp only [kind] <;> decide

end Argument

namespace Program

/-! ## the elements of a document -/

def argumentElement (k : Nat) (a : Argument) : Element :=
  .mk ("arg".toList ++ Text.decimal k) [("type".toList, a.kind)] [] a.text

def instructionElement (k : Nat) (x : Text × List Argument) : Element :=
  .mk "instruction".toList [("order".toList, Text.decimal k), ("opcode".toList, x.1)]
    ((x.2.zipIdx 1).map fun y => argumentElement y.2 y.1) []

def programElement (xs : List (Text × List Argument)) : Element :=
  .mk "program".toList [("language".toList, "IPPcode22".toList)]
    ((xs.zipIdx 1).map fun y => instructionElement y.2 y.1) []

/-! ## and what they hold -/

def argumentOf? : Element → Option Argument
  | .mk _ as _ text => (as.lookup "type".toList).bind fun kind => Argument.ofKind? kind text

def instructionOf? : Element → Option (Text × List Argument)
  | .mk _ as es _ =>
    (as.lookup "opcode".toList).bind fun opcode => (es.mapM argumentOf?).map fun l => (opcode, l)

/-- the opcodes and arguments in the element of a program -/
def recover? : Element → Option (List (Text × List Argument))
  | .mk _ _ es _ => es.mapM instructionOf?

theorem mapM_map_eq_some {α β γ : Type} {f : α → β} {g : β → Option γ} {k : α → γ} {l : List α}
    (h : ∀ x ∈ l, g (f x) = some (k x)) : (l.map f).mapM g = some (l.map k) := by
  induction l with
  | nil => rfl
  | cons x l ih =>
    rw [List.forall_mem_cons] at h
    rw [List.map_cons, List.mapM_cons, h.1, ih h.2]
    rfl

theorem mapM_zipIdx {α : Type} {f : Nat → α → Element} {g : Element → Option α}
    (h : ∀ k x, g (f k x) = some x) (k : Nat) (l : List α) :
    ((l.zipIdx k).map fun y => f y.2 y.1).mapM g = some l := by
  rw [mapM_map_eq_some (k := Prod.fst) fun y _ => h y.2 y.1, List.zipIdx_map_fst]

theorem argumentOf?_argumentElement (k : Nat) (a : Argument) :
    argumentOf? (argumentElement k a) = some a := Argument.ofKind?_kind a

theorem instructionOf?_instructionElement (k : Nat) (x : Text × List Argument) :
    instructionOf? (instructionElement k x) = some x := by
  show (List.mapM argumentOf? ((x.2.zipIdx 1).map fun y => argumentElement y.2 y.1)).map
    (fun l => (x.1, l)) = some x
  rw [mapM_zipIdx argumentOf?_argumentElement]
  rfl

theorem recover?_programElement (xs : List (Text × List Argument)) :
    recover? (programElement xs) = some xs :=
  mapM_zipIdx instructionOf?_instructionElement 1 xs

/-! ## layout -/

theorem plain_decimal (n : Nat) : ∀ c ∈ Text.decimal n, isSpecial c = false := by
  intro c hc
  apply plain_of_isAlphanum
  rw [Char.isAlphanum, Nat.isDigit_of_mem_toDigits (by decide) (by decide) hc, Bool.or_true]

theorem isName_argumentName (k : Nat) : isName (argumentName k) = true := by
  show (Char.isAlpha 'a' && (['r', 'g'] ++ Text.decimal k).all Char.isAlphanum) = true
  rw [List.all_append, Bool.and_eq_true, Bool.and_eq_true]
  refine ⟨by decide, by decide, List.all_eq_true.mpr ?_⟩
  intro c hc
  rw [Char.isAlphanum, Nat.isDigit_of_mem_toDigits (by decide) (by decide) hc, Bool.or_true]

/-- an element on a line of its own -/
theorem lays_line {i t : Text} {e : Element} (hi : Blanks i) (h : Lays t [e]) :
    Lays (i ++ t ++ ['\n']) [e] := by
  have hnl : Blanks ['\n'] := by decide
  exact ((lays_blank hi).append h).append (lays_blank hnl)

theorem lays_flatMap {α : Type} {f : α → Text} {g : α → Element} {l : List α}
    (h : ∀ x ∈ l, Lays (f x) [g x]) : Lays (l.flatMap f) (l.map g) := by
  induction l with
  | nil => exact lays_blank blanks_nil
  | cons x l ih =>
    rw [List.forall_mem_cons] at h
    exact h.1.append (ih h.2)

theorem lays_argumentLine (k : Nat) (a : Argument) :
    Lays (argumentLine k a) [argumentElement k a] := by
  have has : IsPlain [("type".toList, a.kind)] := by
    refine ⟨?_, ?_, List.pairwise_singleton _ _⟩
    · rw [List.forall_mem_singleton]
      show isName "type".toList = true
      decide
    · rw [List.forall_mem_singleton]
      exact a.plain_kind
  have hassoc : ∀ i s t e n : Text, i ++ s ++ t ++ e ++ n = i ++ (s ++ t ++ e) ++ n := by
    intro i s t e n
    simp only [List.append_assoc]
  have hshape : argumentLine k a = "    ".toList ++ (startTag (argumentName k)
      [("type".toList, a.kind)] ++ escape a.text ++ endTag (argumentName k)) ++ ['\n'] :=
    hassoc _ _ _ _ _
  have hindent : Blanks "    ".toList := by decide
  rw [hshape]
  exact lays_line hindent (lays_text (isName_argumentName k) has)

theorem instructionLines_of_isEmpty {i : Instruction} (h : i.arguments.isEmpty = true) :
    instructionLines i = "  ".toList ++ emptyTag "instruction".toList
      [("order".toList, Text.decimal i.order), ("opcode".toList, i.opcode)] ++ ['\n'] := if_pos h

theorem instructionLines_of_not_isEmpty {i : Instruction} (h : ¬ i.arguments.isEmpty = true) :
    instructionLines i = "  ".toList ++ startTag "instruction".toList
      [("order".toList, Text.decimal i.order), ("opcode".toList, i.opcode)] ++ ['\n']
      ++ argumentLines 1 i.arguments ++ "  ".toList ++ endTag "instruction".toList ++ ['\n'] :=
  if_neg h

theorem lays_instructionLines {i : Instruction} (h : ∀ c ∈ i.opcode, isSpecial c = false) :
    Lays (instructionLines i) [instructionElement i.order (i.opcode, i.arguments)] := by
  have hname : isName "instruction".toList = true := by decide
  have hindent : Blanks "  ".toList := by decide
  have has : IsPlain [("order".toList, Text.decimal i.order), ("opcode".toList, i.opcode)] := by
    refine ⟨?_, ?_, ?_⟩
    · rw [List.forall_mem_cons, List.forall_mem_singleton]
      have hnames : isName "order".toList = true ∧ isName "opcode".toList = true := by decide
      exact hnames
    · rw [List.forall_mem_cons, List.forall_mem_singleton]
      exact ⟨plain_decimal i.order, h⟩
    · show ["order".toList, "opcode".toList].Nodup
      decide
  by_cases hargs : i.arguments.isEmpty = true
  · have hel : instructionElement i.order (i.opcode, i.arguments) = .mk "instruction".toList
        [("order".toList, Text.decimal i.order), ("opcode".toList, i.opcode)] [] [] := by
      rw [instructionElement, List.isEmpty_iff.mp hargs]
      rfl
    rw [instructionLines_of_isEmpty hargs, hel]
    exact lays_line hindent (lays_empty hname has)
  · have hinner : Lays (['\n'] ++ argumentLines 1 i.arguments ++ "  ".toList)
        ([] ++ ((i.arguments.zipIdx 1).map fun y => argumentElement y.2 y.1) ++ []) := by
      have hnl : Blanks ['\n'] := by decide
      have hlines : Lays (argumentLines 1 i.arguments)
          ((i.arguments.zipIdx 1).map fun y => argumentElement y.2 y.1) :=
        lays_flatMap fun y _ => lays_argumentLine y.2 y.1
      exact ((lays_blank hnl).append hlines).append (lays_blank hindent)
    rw [List.nil_append, List.append_nil] at hinner
    have hne : ((i.arguments.zipIdx 1).map fun y => argumentElement y.2 y.1) ≠ [] := by
      simpa using hargs
    have hlays := lays_line hindent (lays_nested hname has hne hinner)
    rw [instructionLines_of_not_isEmpty hargs]
    simp only [List.append_assoc] at hlays ⊢
    exact hlays

theorem document_of_isEmpty {p : Program} (h : p.isEmpty = true) : p.document = declaration
    ++ emptyTag "program".toList [("language".toList, language)] ++ ['\n'] := if_pos h

theorem document_of_not_isEmpty {p : Program} (h : ¬ p.isEmpty = true) : p.document = declaration
    ++ startTag "program".toList [("language".toList, language)] ++ ['\n']
    ++ p.toList.flatMap instructionLines ++ endTag "program".toList ++ ['\n'] := if_neg h

theorem lays_document {p : Program} (h : ∀ i ∈ p.toList, ∀ c ∈ i.opcode, isSpecial c = false) :
    ∃ t, p.document = prolog ++ t ∧ Lays t [.mk "program".toList
      [("language".toList, "IPPcode22".toList)]
      (p.toList.map fun i => instructionElement i.order (i.opcode, i.arguments)) []] := by
  have hname : isName "program".toList = true := by decide
  have hnl : Blanks ['\n'] := by decide
  have has : IsPlain [("language".toList, "IPPcode22".toList)] := by
    refine ⟨?_, ?_, List.pairwise_singleton _ _⟩
    · rw [List.forall_mem_singleton]
      decide
    · rw [List.forall_mem_singleton]
      decide
  have hdecl : declaration = prolog ++ ['\n'] := by decide
  by_cases he : p.isEmpty = true
  · rw [document_of_isEmpty he, (isEmpty_iff p).mp he, hdecl]
    refine ⟨['\n'] ++ emptyTag "program".toList [("language".toList, language)] ++ ['\n'], ?_, ?_⟩
    · simp only [List.append_assoc]
    · exact lays_line hnl (lays_empty hname has)
  · rw [document_of_not_isEmpty he, hdecl]
    have hinner : Lays (['\n'] ++ p.toList.flatMap instructionLines)
        ([] ++ p.toList.map fun i => instructionElement i.order (i.opcode, i.arguments)) :=
      (lays_blank hnl).append (lays_flatMap fun i hi => lays_instructionLines (h i hi))
    have hne : (p.toList.map fun i => instructionElement i.order (i.opcode, i.arguments)) ≠ [] := by
      rw [Ne, List.map_eq_nil_iff, ← isEmpty_iff]
      exact he
    refine ⟨['\n'] ++ (startTag "program".toList [("language".toList, language)]
      ++ (['\n'] ++ p.toList.flatMap instructionLines) ++ endTag "program".toList) ++ ['\n'],
      ?_, ?_⟩
    · simp only [List.append_assoc]
    · exact lays_line hnl (lays_nested hname has hne hinner)

/-! ## reading -/

/-- opcodes that are written as they are -/
abbrev PlainOpcodes (xs : List (Text × List Argument)) : Prop :=
  ∀ x ∈ xs, ∀ c ∈ x.1, isSpecial c = false

theorem toList_ofList (xs : List (Text × List Argument)) :
    (ofList xs).toList = (xs.zipIdx 1).map fun x => ⟨x.2, x.1.1, x.1.2⟩ := by
  rw [ofList, toList_pushAll, toList_empty, size_empty]
  rfl

theorem read?_document {xs : List (Text × List Argument)} (h : PlainOpcodes xs) :
    read? (ofList xs).document = some (programElement xs) := by
  have hopcodes : ∀ i ∈ (ofList xs).toList, ∀ c ∈ i.opcode, isSpecial c = false := by
    rw [toList_ofList]
    intro i hi
    obtain ⟨y, hy, rfl⟩ := List.mem_map.mp hi
    exact h y.1 (List.fst_mem_of_mem_zipIdx hy)
  obtain ⟨t, ht, hlays⟩ := lays_document hopcodes
  rw [ht, read?_of_lays hlays, toList_ofList, List.map_map]
  rfl

/-- Documents tell programs apart. -/
theorem eq_of_document_eq {xs ys : List (Text × List Argument)} (hx : PlainOpcodes xs)
    (hy : PlainOpcodes ys) (h : (ofList xs).document = (ofList ys).document) : xs = ys := by
  have hread := read?_document hx
  rw [h, read?_document hy, Option.some.injEq] at hread
  have hxs := recover?_programElement xs
  rw [← hread, recover?_programElement ys] at hxs
  exact (Option.some.inj hxs).symm

end Program

end Ippcode
