import Ippcode.Xml

/-!
# A strict reader of XML

`read?` reads documents of a declaration and one element.  Tags are nested, no tag names an
attribute twice, and values are between double quotes.  Attributes and text are unescaped and
otherwise taken as they are, line ends too.  An element has either text or other elements, with
nothing but blanks around them; whatever else there is, the reader refuses.

* `tag?`         what is between `<` and `>`;
* `Reader.step`  a machine that is fed the characters of a document, one after the other; it keeps
                 the open elements, the innermost one apart;
* `root?`        the one element that is left at the end.
-/

namespace Ippcode.Xml

/-- an element that has been read -/
inductive Element where
  | mk (name : Text) (attributes : List (Text × Text)) (children : List Element) (text : Text)

/-! ## tags -/

def isName : Text → Bool
  | [] => false
  | c :: t => c.isAlpha && t.all Char.isAlphanum

inductive Tag where
  | opening (name : Text) (attributes : List (Text × Text))
  | empty (name : Text) (attributes : List (Text × Text))
  | closing (name : Text)

/-- the name in front of a value: a space before it, an equals sign after it -/
def attributeName? : Text → Option Text
  | ' ' :: t => if t.getLast? = some '=' ∧ isName t.dropLast then some t.dropLast else none
  | _ => none

/-- Attributes from what is between the quotes of a tag, and whether a slash comes after them. -/
def attributes? : List Text → Option (List (Text × Text) × Bool)
  | [[]] => some ([], false)
  | [['/']] => some ([], true)
  | before :: value :: pieces =>
    match attributeName? before, unescape? value, attributes? pieces with
    | some n, some v, some (as, slash) =>
      if n ∈ as.map Prod.fst then none else some ((n, v) :: as, slash)
    | _, _, _ => none
  | _ => none

/-- the tag of an element, once its attributes are read -/
def openingTag? (name : Text) : Option (List (Text × Text) × Bool) → Option Tag
  | some (as, true) => some (.empty name as)
  | some (as, false) => some (.opening name as)
  | none => none

/-- what is between `<` and `>` -/
def tag? : Text → Option Tag
  | '/' :: name => if isName name then some (.closing name) else none
  | t =>
    let name := t.takeWhile Char.isAlphanum
    if isName name then
      openingTag? name (attributes? ((t.dropWhile Char.isAlphanum).splitOn '"'))
    else none

/-! ## the machine -/

/-- the four blanks of XML -/
def isBlank (c : Char) : Bool := [' ', '\t', '\n', '\r'].contains c

/-- an element whose end has not come yet -/
structure Open where
  name : Text
  attributes : List (Text × Text)
  children : List Element
  data : Text

namespace Open

def addText (o : Open) (t : Text) : Open := { o with data := o.data ++ t }

def addChild (o : Open) (e : Element) : Open := { o with children := o.children ++ [e] }

/-- the element at its end: among children only blanks are allowed, and they are dropped -/
def close? (o : Open) : Option Element :=
  if o.children.isEmpty then some (.mk o.name o.attributes [] o.data)
  else if o.data.all isBlank then some (.mk o.name o.attributes o.children [])
  else none

end Open

/-- the innermost open element, those around it, and the characters since the last `<` or `>` -/
structure Reader where
  top : Open
  below : List Open
  inTag : Bool
  raw : Text

namespace Reader

def act (top : Open) (below : List Open) : Tag → Option Reader
  | .opening n as => some ⟨⟨n, as, [], []⟩, top :: below, false, []⟩
  | .empty n as => some ⟨top.addChild (.mk n as [] []), below, false, []⟩
  | .closing n =>
    match below with
    | [] => none
    | o :: os =>
      if n = top.name then top.close?.map fun e => ⟨o.addChild e, os, false, []⟩ else none

/-- the machine after one more character -/
def step (r : Reader) (c : Char) : Option Reader :=
  if c = '<' then
    if r.inTag then none
    else (unescape? r.raw).map fun d => ⟨r.top.addText d, r.below, true, []⟩
  else if c = '>' then
    if r.inTag then (tag? r.raw).bind (act r.top r.below) else none
  else some { r with raw := r.raw ++ [c] }

/-- the machine after more characters -/
def feed (r : Reader) (t : Text) : Option Reader := t.foldlM step r

/-- before the root: the document is the element around it -/
def start : Reader := ⟨⟨[], [], [], []⟩, [], false, []⟩

end Reader

/-- the first words of a document -/
def prolog : Text := "<?xml version=\"1.0\" encoding=\"UTF-8\"?>".toList

/-- the root of a document -/
def root? (r : Reader) : Option Element :=
  if r.inTag = false ∧ r.below.isEmpty ∧ r.raw.all isBlank then
    match r.top.close? with
    | some (.mk _ _ [e] []) => some e
    | _ => none
  else none

/-- the root of the document that a text is -/
def read? (t : Text) : Option Element :=
  if prolog.isPrefixOf t then (Reader.start.feed (t.drop prolog.length)).bind root? else none

end Ippcode.Xml
