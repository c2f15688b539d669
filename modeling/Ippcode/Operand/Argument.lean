import Ippcode.Text

/-!
# Arguments

An operand that has been understood.  A variable lives in one of three frames, written in front of
its name; a value that is read at run time has one of three types.  Integer and string literals
are kept as they are written: whoever runs the program gives them their value.

* `Frame.tag`, `Frame.ofTag?`             `GF`, `LF`, `TF`;
* `ValueType.name`, `ValueType.ofName?`   `int`, `string`, `bool`;
* `Argument.kind`      the word for the sort of an argument, one for each constructor;
* `Argument.text`      what is said of it apart from its kind;
* `Argument.spelling`  how it is written in source: a constant has its kind in front, the other
                       sorts are their text alone.

Frames and value types are read back in this letter case only (`Frame.ofTag?_eq_some_iff`,
`ValueType.ofName?_eq_some_iff`).
-/

namespace Ippcode

/-! ## frames and value types -/

/-- where a variable is kept -/
inductive Frame where
  | globals
  | locals
  | temporaries
deriving DecidableEq, Repr

namespace Frame

def tag : Frame → Text
  | globals => ['G', 'F']
  | locals => ['L', 'F']
  | temporaries => ['T', 'F']

def ofTag? (t : Text) : Option Frame :=
  if t = globals.tag then some globals
  else if t = locals.tag then some locals
  else if t = temporaries.tag then some temporaries
  else none

theorem ofTag?_tag (f : Frame) : ofTag? f.tag = some f := by cases f <;> rfl

theorem ofTag?_eq_some_iff {t : Text} {f : Frame} : ofTag? t = some f ↔ t = f.tag := by
  refine ⟨fun h => ?_, fun h => h ▸ ofTag?_tag f⟩
  unfold ofTag? at h
  split at h
  · next ht => rw [ht, ← Option.some.inj h]
  split at h
  · next ht => rw [ht, ← Option.some.inj h]
  split at h
  · next ht => rw [ht, ← Option.some.inj h]
  · simp at h

end Frame

/-- the type of a value that is read -/
inductive ValueType where
  | integer
  | string
  | boolean
deriving DecidableEq, Repr

namespace ValueType

def name : ValueType → Text
  | integer => ['i', 'n', 't']
  | string => ['s', 't', 'r', 'i', 'n', 'g']
  | boolean => ['b', 'o', 'o', 'l']

def ofName? (t : Text) : Option ValueType :=
  if t = integer.name then some integer
  else if t = string.name then some string
  else if t = boolean.name then some boolean
  else none

theorem ofName?_name (v : ValueType) : ofName? v.name = some v := by cases v <;> decide

theorem ofName?_eq_some_iff {t : Text} {v : ValueType} : ofName? t = some v ↔ t = v.name := by
  refine ⟨fun h => ?_, fun h => h ▸ ofName?_name v⟩
  unfold ofName? at h
  split at h
  · next ht => rw [ht, ← Option.some.inj h]
  split at h
  · next ht => rw [ht, ← Option.some.inj h]
  split at h
  · next ht => rw [ht, ← Option.some.inj h]
  · simp at h

end ValueType

/-! ## arguments -/

/-- an operand that has been understood -/
inductive Argument where
  | var (frame : Frame) (name : Text)
  | integer (literal : Text)
  | string (literal : Text)
  | boolean (value : Bool)
  | nil
  | label (name : Text)
  | type (type : ValueType)
deriving DecidableEq, Repr

namespace Argument

def kind : Argument → Text
  | var _ _ => ['v', 'a', 'r']
  | integer _ => ValueType.integer.name
  | string _ => ValueType.string.name
  | boolean _ => ValueType.boolean.name
  | nil => ['n', 'i', 'l']
  | label _ => ['l', 'a', 'b', 'e', 'l']
  | type _ => ['t', 'y', 'p', 'e']

def text : Argument → Text
  | var frame name => frame.tag ++ '@' :: name
  | integer literal => literal
  | string literal => literal
  | boolean true => ['t', 'r', 'u', 'e']
  | boolean false => ['f', 'a', 'l', 's', 'e']
  | nil => ['n', 'i', 'l']
  | label name => name
  | type t => t.name

/-- one of the four sorts that are written with their kind in front -/
def isConstant : Argument → Bool
  | integer _ => true
  | string _ => true
  | boolean _ => true
  | nil => true
  | _ => false

def spelling (a : Argument) : Text :=
  if a.isConstant then a.kind ++ '@' :: a.text else a.text

theorem spelling_of_isConstant {a : Argument} (h : a.isConstant = true) :
    a.spelling = a.kind ++ '@' :: a.text := by simp [spelling, h]

end Argument

end Ippcode
