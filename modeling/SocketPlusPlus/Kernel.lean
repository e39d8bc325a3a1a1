import Mathlib.Data.List.Basic

/-!
# The operating system under a socket

The library never sees the network: it sees what the system calls answer. A `Kernel` decides every
answer, and may decide it from everything that happened before, so that quantifying over all
kernels is quantifying over all schedules of partial transfers, errors and timeouts. The answers
are bounded by their types: an output call takes between one byte and all it was offered
(`Accepted`), an input call returns at most what it was asked for (`Received`).

Every call leaves an `Event` in the history. What the peer has been sent (`wire`) and what input
calls returned (`inputs`, `received`) are read off the history.
-/

namespace Sockstream

abbrev Errno := Int

def ETIMEDOUT : Errno := 110

/-- The system calls that take bytes from the process. -/
inductive OutCall where
  | write
  | send (msgf : Int)
  /-- `sa` are the bytes of the address. -/
  | sendto (sa : List UInt8) (msgf : Int)
deriving DecidableEq, Repr

/-- The system calls that hand bytes to the process. -/
inductive InCall where
  | read
  | recv (msgf : Int)
deriving DecidableEq, Repr

inductive Event where
  | readready (sec : Int) (answer : Except Errno Bool)
  | writeready (sec : Int) (answer : Except Errno Bool)
  | atmark (answer : Except Errno Bool)
  | output (call : OutCall) (buf : List UInt8) (answer : Except Errno Nat)
  | input (call : InCall) (len : Nat) (answer : Except Errno (List UInt8))

/-- How many of `n` offered bytes an output call that succeeds has taken. -/
abbrev Accepted (n : Nat) := { k : Nat // 0 < k ∧ k ≤ n }

/-- The bytes an input call with room for `n` has stored. -/
abbrev Received (n : Nat) := { bs : List UInt8 // bs.length ≤ n }

structure Kernel where
  readready : List Event → Int → Except Errno Bool
  writeready : List Event → Int → Except Errno Bool
  atmark : List Event → Except Errno Bool
  output : List Event → OutCall → (buf : List UInt8) → Except Errno (Accepted buf.length)
  input : List Event → InCall → (len : Nat) → Except Errno (Received len)

/-- A peer that takes whatever it is sent and has already closed its own side. -/
def Kernel.sink : Kernel where
  readready _ _ := .ok true
  writeready _ _ := .ok true
  atmark _ := .ok false
  output _ _ buf := if h : 0 < buf.length then .ok ⟨buf.length, h, Nat.le_refl _⟩ else .error 0
  input _ _ _ := .ok ⟨[], Nat.zero_le _⟩

theorem Kernel.sink_output {history : List Event} {call : OutCall} {buf : List UInt8}
    {k : Accepted buf.length} (h : Kernel.sink.output history call buf = .ok k) :
    k.1 = buf.length := by
  change (if hpos : 0 < buf.length then
      Except.ok (⟨buf.length, hpos, Nat.le_refl _⟩ : Accepted buf.length)
    else Except.error 0) = .ok k at h
  by_cases hpos : 0 < buf.length
  · rw [dif_pos hpos] at h
    cases h
    rfl
  · rw [dif_neg hpos] at h
    cases h

/-- The same peer behind a send buffer with room for one byte. -/
def Kernel.drip : Kernel :=
  { Kernel.sink with
    output := fun _ _ buf => if h : 0 < buf.length then .ok ⟨1, Nat.one_pos, h⟩ else .error 0 }

/-! ## Reading the history

What was sent and what was received are not kept in the state of a program: both are read off the
list of events. -/

/-- The bytes of an event that the kernel has accepted. -/
def Event.accepted : Event → List UInt8
  | .output _ buf (.ok k) => buf.take k
  | _ => []

def Event.answer? : Event → Option (Except Errno (List UInt8))
  | .input _ _ answer => some answer
  | _ => none

/-- All bytes the kernel has accepted, in order. -/
def wire (history : List Event) : List UInt8 := history.flatMap Event.accepted

/-- The answers of all input calls, in order. -/
def inputs (history : List Event) : List (Except Errno (List UInt8)) :=
  history.filterMap Event.answer?

def answerBytes : Except Errno (List UInt8) → List UInt8
  | .ok bs => bs
  | .error _ => []

theorem wire_append (h es : List Event) : wire (h ++ es) = wire h ++ wire es :=
  List.flatMap_append ..

/-- All bytes that input calls returned, in order. -/
def received (history : List Event) : List UInt8 := (inputs history).flatMap answerBytes

theorem inputs_append (h es : List Event) : inputs (h ++ es) = inputs h ++ inputs es :=
  List.filterMap_append ..

theorem received_append (h es : List Event) : received (h ++ es) = received h ++ received es := by
  simp [received, inputs_append]

/-- The kernel's view of the process: what was called so far, and the last error it reported. -/
structure Sys where
  history : List Event
  errno : Errno

/-- Note an event; a call that failed also sets `errno`. -/
def Sys.record (sys : Sys) (e : Event) : Sys := { sys with history := sys.history ++ [e] }

def Sys.fail (sys : Sys) (e : Event) (err : Errno) : Sys :=
  { history := sys.history ++ [e], errno := err }

end Sockstream
