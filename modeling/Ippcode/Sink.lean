import Ippcode.Utf8
import Ippcode.Fault

/-!
# Sinks

Where a result is delivered.  A sink takes so many bytes and refuses the rest; it may also refuse
to pass on what it has taken.  Either refusal is the fault `undelivered`, with the reason that the
sink gives.

* `Utf8.fitting n t`   the longest beginning of `t` that takes at most `n` bytes;
* `Sink.taken s t`      what reaches a sink of a text, in full if `Sink.holds s t`;
* `Sink.delivery s t`   whether all went well.
-/

namespace Ippcode

namespace Utf8

/-- The characters of a text that fit into `n` bytes, put in front of `done`, the newest first. -/
def fittingAux : Nat → Text → Text → Text
  | _, [], done => done
  | n, c :: t, done =>
    if c.utf8Size ≤ n then fittingAux (n - c.utf8Size) t (c :: done) else done

/-- the longest beginning of a text that takes at most `n` bytes -/
def fitting (n : Nat) (t : Text) : Text := (fittingAux n t []).reverse

theorem fittingAux_eq (n : Nat) (t done : Text) :
    fittingAux n t done = fittingAux n t [] ++ done := by
  induction t generalizing n done with
  | nil => simp [fittingAux]
  | cons c t ih =>
    rw [fittingAux, fittingAux]
    split
    · rw [ih _ (c :: done), ih _ [c]]; simp
    · rfl

theorem fitting_nil (n : Nat) : fitting n [] = [] := rfl
theorem fitting_cons (n : Nat) (c : Char) (t : Text) :
    fitting n (c :: t) = if c.utf8Size ≤ n then c :: fitting (n - c.utf8Size) t else [] := by
  unfold fitting
  rw [fittingAux]
  split
  · rw [fittingAux_eq]; simp
  · rfl

theorem size_fitting_le (n : Nat) (t : Text) : size (fitting n t) ≤ n := by
  induction t generalizing n with
  | nil => simp [fitting_nil, size_nil]
  | cons c t ih =>
    rw [fitting_cons]
    split
    · next h =>
      rw [size_cons]
      have := ih (n - c.utf8Size)
      omega
    · simp [size_nil]

theorem fitting_of_size_le {n : Nat} {t : Text} (h : size t ≤ n) : fitting n t = t := by
  induction t generalizing n with
  | nil => rfl
  | cons c t ih =>
    rw [size_cons] at h
    rw [fitting_cons, if_pos (by omega), ih (by omega)]

end Utf8

/-- a place for a result -/
structure Sink where
  /-- the number of bytes that it takes, if there is a limit -/
  room : Option Nat
  /-- the reason it gives once it is full -/
  full : Text
  /-- the reason it gives when it does not pass on what it has taken -/
  unflushed : Option Text
deriving DecidableEq, Repr

namespace Sink

def unbounded : Sink := ⟨none, [], none⟩

/-- a sink that takes no byte once it is full, and leaves a write short -/
def stalling (room : Nat) : Sink := ⟨some room, "failed to write whole buffer".toList, none⟩

def bounded (room : Nat) : Sink := ⟨some room, "sink is full".toList, none⟩

def unflushable (room : Nat) : Sink :=
  ⟨some room, "sink is full".toList, some "flush failed".toList⟩

def refusing (reason : Text) : Sink := ⟨some 0, reason, none⟩

def noSpace : Sink := refusing "No space left on device (os error 28)".toList

def holds (s : Sink) (t : Text) : Bool :=
  match s.room with
  | none => true
  | some n => Utf8.size t ≤ n

/-- what a sink takes of a text -/
def taken (s : Sink) (t : Text) : Text :=
  match s.room with
  | none => t
  | some n => Utf8.fitting n t

def delivery (s : Sink) (t : Text) : Except Fault Unit :=
  if s.holds t then
    match s.unflushed with
    | none => .ok ()
    | some reason => .error (.undelivered reason)
  else .error (.undelivered s.full)

/-- A sink without room refuses every text but the empty one. -/
theorem delivery_refusing {reason t : Text} (h : t ≠ []) :
    (refusing reason).delivery t = .error (.undelivered reason) := by
  obtain ⟨c, t, rfl⟩ := List.exists_cons_of_ne_nil h
  have hpos : 0 < Utf8.size (c :: t) := by
    rw [Utf8.size_cons]
    exact Nat.add_pos_left c.utf8Size_pos _
  have hholds : (refusing reason).holds (c :: t) = false := decide_eq_false (Nat.not_le.mpr hpos)
  unfold delivery
  rw [hholds]
  rfl

theorem taken_refusing (reason t : Text) : (refusing reason).taken t = [] := by
  show Utf8.fitting 0 t = []
  cases t with
  | nil => rfl
  | cons c t => rw [Utf8.fitting_cons, if_neg (Nat.not_le.mpr c.utf8Size_pos)]

end Sink

/-! ## the output of a process -/

/-- what the output of a process may be -/
inductive Output where
  | good
  /-- a device without space -/
  | full
deriving DecidableEq, Repr

def Output.sink : Output → Sink
  | good => .unbounded
  | full => .noSpace

end Ippcode
