import Ippcode.Operand.Argument
import Ippcode.Source.Line
import Ippcode.Xml

/-!
# Programs

A program is built by `Program.push`, which numbers each instruction after the last one.  It says
nothing about what opcodes and arguments are: that is settled before they are pushed.

* `Instruction.spelling`   an instruction as it stands in source: the opcode and the arguments, one
                           space before each of them;
* `Program.toList_push`    all that the other operations need to know of `push`;
* `Program.document`       the XML document;
* `Program.source`         the canonical source: the header and one line for each instruction,
                           without blanks or comments.  All that a source says beyond this is layout;
* `Program.listing`        one line for each instruction, in three columns.
-/

namespace Ippcode

/-! ## instructions -/

/-- an opcode with its arguments, and its place in the program, counted from 1 -/
structure Instruction where
  order : Nat
  opcode : Text
  arguments : List Argument
deriving DecidableEq, Repr

def spell (opcode : Text) (arguments : List Argument) : Text :=
  opcode ++ arguments.flatMap fun a => ' ' :: a.spelling

def Instruction.spelling (i : Instruction) : Text := spell i.opcode i.arguments

/-! ## programs -/

structure Program where
  instructions : Array Instruction
deriving DecidableEq, Repr

namespace Program

def empty : Program := ⟨#[]⟩

def toList (p : Program) : List Instruction := p.instructions.toList

def size (p : Program) : Nat := p.instructions.size

def isEmpty (p : Program) : Bool := p.instructions.isEmpty

/-- an opcode with its arguments, numbered as the next instruction -/
def numbered (p : Program) (opcode : Text) (arguments : List Argument) : Instruction :=
  ⟨p.size + 1, opcode, arguments⟩

/-- one more instruction at the end, with the next number -/
def push (p : Program) (opcode : Text) (arguments : List Argument) : Program :=
  ⟨p.instructions.push (p.numbered opcode arguments)⟩

theorem toList_empty : empty.toList = [] := rfl
theorem toList_push (p : Program) (opcode : Text) (arguments : List Argument) :
    (p.push opcode arguments).toList = p.toList ++ [⟨p.size + 1, opcode, arguments⟩] := by
  simp [push, numbered, toList]

theorem size_empty : empty.size = 0 := rfl
theorem size_push (p : Program) (opcode : Text) (arguments : List Argument) :
    (p.push opcode arguments).size = p.size + 1 := by
  simp [push, size]

theorem length_toList (p : Program) : p.toList.length = p.size := by
  simp [toList, size]

theorem isEmpty_iff (p : Program) : p.isEmpty = true ↔ p.toList = [] := by
  simp [isEmpty, toList]

theorem ext_toList {p q : Program} (h : p.toList = q.toList) : p = q := by
  cases p; cases q
  simpa [toList] using h

/-! ## a program from opcodes and arguments -/

/-- pushes on to a program, one after the other -/
def pushAll (p : Program) (xs : List (Text × List Argument)) : Program :=
  xs.foldl (fun p x => p.push x.1 x.2) p

def ofList (xs : List (Text × List Argument)) : Program := empty.pushAll xs

theorem pushAll_nil (p : Program) : p.pushAll [] = p := rfl
theorem pushAll_cons (p : Program) (x : Text × List Argument) (xs : List (Text × List Argument)) :
    p.pushAll (x :: xs) = (p.push x.1 x.2).pushAll xs := rfl
theorem pushAll_append (p : Program) (xs ys : List (Text × List Argument)) :
    p.pushAll (xs ++ ys) = (p.pushAll xs).pushAll ys := by
  simp [pushAll, List.foldl_append]

/-- the numbers go on where the program ended -/
theorem toList_pushAll (p : Program) (xs : List (Text × List Argument)) :
    (p.pushAll xs).toList
      = p.toList ++ (xs.zipIdx (p.size + 1)).map fun x => ⟨x.2, x.1.1, x.1.2⟩ := by
  induction xs generalizing p with
  | nil => simp [pushAll_nil]
  | cons x xs ih => rw [pushAll_cons, ih, toList_push, size_push]; simp

end Program

/-! ## the document

One element `program`, one element `instruction` inside it for each instruction, with its number
and its opcode, and one element `arg1`, `arg2`, … inside that for each argument, with its kind as
an attribute and its text as content.  An element without children is an empty tag; an argument
always has both its tags, also when its text is empty. -/

def language : Text := "IPPcode22".toList

namespace Xml

def declaration : Text := "<?xml version=\"1.0\" encoding=\"UTF-8\"?>\n".toList

end Xml

namespace Program

/-- the name of the element of the `k`-th argument -/
def argumentName (k : Nat) : Text := "arg".toList ++ Text.decimal k

def argumentLine (k : Nat) (a : Argument) : Text :=
  "    ".toList ++ Xml.startTag (argumentName k) [("type".toList, a.kind)] ++ Xml.escape a.text
    ++ Xml.endTag (argumentName k) ++ ['\n']

/-- the lines of arguments, numbered from `k` on -/
def argumentLines (k : Nat) (as : List Argument) : Text :=
  (as.zipIdx k).flatMap fun x => argumentLine x.2 x.1

theorem argumentLines_nil (k : Nat) : argumentLines k [] = [] := rfl
theorem argumentLines_cons (k : Nat) (a : Argument) (as : List Argument) :
    argumentLines k (a :: as) = argumentLine k a ++ argumentLines (k + 1) as := by
  simp [argumentLines]

def instructionLines (i : Instruction) : Text :=
  let name := "instruction".toList
  let attributes := [("order".toList, Text.decimal i.order), ("opcode".toList, i.opcode)]
  if i.arguments.isEmpty then "  ".toList ++ Xml.emptyTag name attributes ++ ['\n']
  else
    "  ".toList ++ Xml.startTag name attributes ++ ['\n'] ++ argumentLines 1 i.arguments
      ++ "  ".toList ++ Xml.endTag name ++ ['\n']

def document (p : Program) : Text :=
  let name := "program".toList
  let attributes := [("language".toList, language)]
  if p.isEmpty then Xml.declaration ++ Xml.emptyTag name attributes ++ ['\n']
  else
    Xml.declaration ++ Xml.startTag name attributes ++ ['\n'] ++ p.toList.flatMap instructionLines
      ++ Xml.endTag name ++ ['\n']

theorem document_ne_nil (p : Program) : p.document ≠ [] := by
  unfold document
  cases p.isEmpty <;> exact List.cons_ne_nil _ _

/-! ## the canonical source -/

def sourceLine (i : Instruction) : Text := i.spelling ++ ['\n']

def source (p : Program) : Text := Source.header ++ ['\n'] ++ p.toList.flatMap sourceLine

theorem source_empty : source empty = Source.header ++ ['\n'] := by
  simp [source, toList_empty]

end Program

/-! ## the listing

The columns are the number, the opcode, and the arguments with their kinds.  The first two are as
wide as their widest cell and one blank; the third is not padded.  Cells are measured by counting
places: every ASCII character takes one, a control character too, except that a line end, LF or
CR LF, takes none.  A text on one line takes as many as it has characters
(`places_of_no_lineFeed`). -/

namespace Text

/-- A character in front of a text: the places of both, and whether they begin with a line feed. -/
def addPlace (c : Char) (after : Nat × Bool) : Nat × Bool :=
  if c = '\n' then (after.1, true)
  else if c = '\r' ∧ after.2 = true then (after.1, false)
  else (after.1 + 1, false)

/-- the number of places that an ASCII text takes -/
def places (t : Text) : Nat := (t.foldr addPlace (0, false)).1

theorem places_nil : places [] = 0 := rfl
theorem places_lf (t : Text) : places ('\n' :: t) = places t := by simp [places, addPlace]
theorem places_crlf (t : Text) : places ('\r' :: '\n' :: t) = places t := by
  simp [places, addPlace]
theorem places_cons {c : Char} (h : c ≠ '\n') (h' : c ≠ '\r') (t : Text) :
    places (c :: t) = places t + 1 := by
  simp [places, addPlace, h, h']

theorem places_of_no_lineFeed {t : Text} (h : '\n' ∉ t) : places t = t.length := by
  have aux : t.foldr addPlace (0, false) = (t.length, false) := by
    induction t with
    | nil => rfl
    | cons c t ih =>
      rw [List.mem_cons, not_or] at h
      rw [List.foldr_cons, ih h.2, addPlace, if_neg (Ne.symm h.1), if_neg (by simp)]
      rfl
  rw [places, aux]

end Text

namespace Program

/-- a number set flush right in four places, and a colon -/
def orderCell (n : Nat) : Text := (Text.decimal n).leftpad 4 ' ' ++ [':']

/-- `[kind] text` -/
def argumentCell (a : Argument) : Text := '[' :: (a.kind ++ ']' :: ' ' :: a.text)

def argumentsCell (as : List Argument) : Text :=
  Text.joined ", ".toList (as.map argumentCell)

def widest (cells : List Text) : Nat := (cells.map Text.places).foldr max 0

theorem widest_nil : widest [] = 0 := rfl
theorem widest_cons (c : Text) (cs : List Text) :
    widest (c :: cs) = max (Text.places c) (widest cs) := rfl

theorem places_le_widest {cells : List Text} {c : Text} (h : c ∈ cells) :
    Text.places c ≤ widest cells := by
  induction cells with
  | nil => simp at h
  | cons d cells ih =>
    rw [widest_cons]
    rcases List.mem_cons.mp h with rfl | h
    · exact Nat.le_max_left _ _
    · exact Nat.le_trans (ih h) (Nat.le_max_right _ _)

/-- a cell, filled up with blanks to a width, and the blank after its column -/
def padded (width : Nat) (cell : Text) : Text :=
  cell ++ List.replicate (width - Text.places cell) ' ' ++ [' ']

/-- a cell that is on one line and no wider than its column fills it -/
theorem length_padded {width : Nat} {cell : Text} (h : '\n' ∉ cell)
    (hw : Text.places cell ≤ width) : (padded width cell).length = width + 1 := by
  have hp := Text.places_of_no_lineFeed h
  simp only [padded, List.length_append, List.length_replicate, List.length_singleton]
  omega

/-- one line of a listing, for columns of the given widths -/
def listingLine (orders opcodes : Nat) (i : Instruction) : Text :=
  padded orders (orderCell i.order) ++ padded opcodes i.opcode ++ argumentsCell i.arguments
    ++ ['\n']

def listing (p : Program) : Text :=
  let orders := widest (p.toList.map fun i => orderCell i.order)
  let opcodes := widest (p.toList.map fun i => i.opcode)
  p.toList.flatMap (listingLine orders opcodes)

theorem listing_empty : listing empty = [] := rfl

end Program

end Ippcode
