import Mathlib.Logic.Relation
import Mathlib.Data.List.Basic

/-!
# A queue that remembers

`Fifo α` is a first-in first-out queue together with its whole history: everything ever pushed and
everything ever popped. The field `balance` is the law of the queue, so a value of the type that
loses, repeats or reorders an element cannot be built. `Fifo.Step` pushes some elements or pops
some, and `Fifo.Steps` is any number of such steps.

A component that hands bytes on in order is shown correct by relating its state to a `Fifo` and
each of its operations to `Steps`.
-/

/-- A queue with its history: `popped` left it in order, `held` is still inside. -/
structure Fifo (α : Type) where
  pushed : List α
  popped : List α
  held : List α
  balance : popped ++ held = pushed

namespace Fifo

variable {α : Type}

def empty : Fifo α := ⟨[], [], [], rfl⟩

def push (q : Fifo α) (xs : List α) : Fifo α where
  pushed := q.pushed ++ xs
  popped := q.popped
  held := q.held ++ xs
  balance := by rw [← List.append_assoc, q.balance]

/-- The first `k` elements leave (all of them, if fewer are held). -/
def pop (q : Fifo α) (k : Nat) : Fifo α where
  pushed := q.pushed
  popped := q.popped ++ q.held.take k
  held := q.held.drop k
  balance := by rw [List.append_assoc, List.take_append_drop, q.balance]

inductive Step : Fifo α → Fifo α → Prop where
  | push (q : Fifo α) (xs : List α) : Step q (q.push xs)
  | pop (q : Fifo α) (k : Nat) : Step q (q.pop k)

def Steps : Fifo α → Fifo α → Prop := Relation.ReflTransGen Step

end Fifo
