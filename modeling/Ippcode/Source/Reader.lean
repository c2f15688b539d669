import Ippcode.Source.Line

/-!
# Reading a source line by line

A `Reader` holds the physical lines that are still to come and the number of lines read so far.
A line that is no text is passed over without being counted, so the count is the number of
the last line read only until the first such line.

* `Reader.nextLine`       one line, and the reader after it;
* `Reader.expectHeader`   all lines up to the first that has code, which has to be the header;
* `Reader.perform`        either of them, `Reader.answers` and `Reader.after` many steps, which may
                          come in any order and go on after a fault.
-/

namespace Ippcode.Source

/-- a place in a source -/
structure Reader where
  /-- the lines still to come -/
  pending : List Bytes
  /-- the number of lines read -/
  line : Nat
deriving DecidableEq, Repr

namespace Reader

def ofBytes (bs : Bytes) : Reader := ⟨breakLines bs, 0⟩

/-- the next line, none at the end -/
def nextLine (r : Reader) : Except Fault (Option Text) × Reader :=
  match r.pending with
  | [] => (.ok none, r)
  | raw :: rest =>
    match readAfter r.line raw with
    | .ok t => (.ok (some t), ⟨rest, r.line + 1⟩)
    | .error f => (.error f, ⟨rest, r.line⟩)

theorem nextLine_end (n : Nat) : nextLine ⟨[], n⟩ = (.ok none, ⟨[], n⟩) := rfl

theorem nextLine_cons_of_ok {n : Nat} {raw : Bytes} {t : Text} (h : readAfter n raw = .ok t)
    (rest : List Bytes) : nextLine ⟨raw :: rest, n⟩ = (.ok (some t), ⟨rest, n + 1⟩) := by
  simp [nextLine, h]

theorem nextLine_cons_of_error {n : Nat} {raw : Bytes} {f : Fault} (h : readAfter n raw = .error f)
    (rest : List Bytes) : nextLine ⟨raw :: rest, n⟩ = (.error f, ⟨rest, n⟩) := by
  simp [nextLine, h]

/-- Looks for the header from line `n` on, past lines without code. -/
def seekHeader (n : Nat) : List Bytes → Except Fault Unit × Reader
  | [] => (.error (.missingHeader header), ⟨[], n⟩)
  | raw :: rest =>
    match readAfter n raw with
    | .error f => (.error f, ⟨rest, n⟩)
    | .ok t =>
      if code t = [] then seekHeader (n + 1) rest
      else (checkHeader (n + 1) (code t), ⟨rest, n + 1⟩)

/-- the lines up to the first one with code, which has to be the header -/
def expectHeader (r : Reader) : Except Fault Unit × Reader := seekHeader r.line r.pending

theorem expectHeader_end (n : Nat) :
    expectHeader ⟨[], n⟩ = (.error (.missingHeader header), ⟨[], n⟩) := rfl

/-! ## many steps -/

/-- what a reader may be asked for -/
inductive Step where
  | nextLine
  | expectHeader
deriving DecidableEq, Repr

inductive Answer where
  | line (result : Except Fault (Option Text))
  | header (result : Except Fault Unit)

def perform (r : Reader) : Step → Answer × Reader
  | .nextLine => (.line r.nextLine.1, r.nextLine.2)
  | .expectHeader => (.header r.expectHeader.1, r.expectHeader.2)

/-- the reader after more steps -/
def after (r : Reader) (steps : List Step) : Reader := steps.foldl (fun r s => (r.perform s).2) r

/-- the answers to more steps, each given where the one before has left the reader -/
def answers (r : Reader) : List Step → List Answer
  | [] => []
  | s :: steps => (r.perform s).1 :: answers (r.perform s).2 steps

theorem after_nil (r : Reader) : r.after [] = r := rfl
theorem after_cons (r : Reader) (s : Step) (steps : List Step) :
    r.after (s :: steps) = (r.perform s).2.after steps := rfl
theorem after_concat (r : Reader) (steps : List Step) (s : Step) :
    r.after (steps ++ [s]) = ((r.after steps).perform s).2 := by
  simp [after, List.foldl_append]

theorem answers_nil (r : Reader) : r.answers [] = [] := rfl
theorem answers_cons (r : Reader) (s : Step) (steps : List Step) :
    r.answers (s :: steps) = (r.perform s).1 :: (r.perform s).2.answers steps := rfl
theorem answers_concat (r : Reader) (steps : List Step) (s : Step) :
    r.answers (steps ++ [s]) = r.answers steps ++ [((r.after steps).perform s).1] := by
  induction steps generalizing r with
  | nil => rfl
  | cons u steps ih => rw [List.cons_append, answers_cons, ih, answers_cons, after_cons]; rfl

end Reader

end Ippcode.Source
