/-
A bounded queue with a seat. Who is at the front may take the seat, who is seated may go to the back
of the queue, and anybody may leave. An operation that is refused is `none`; the one exception is a
front that may not take the free seat, which goes to the back.
-/
import Mathlib.Data.List.Basic

namespace Lib

structure Fifo (α : Type) where
  queue : List α
  seat : Option α

namespace Fifo

variable {α : Type}

def add (cap : Nat) (x : α) (f : Fifo α) : Option (Fifo α) :=
  if f.queue.length < cap then some { f with queue := f.queue ++ [x] } else none

def next (f : Fifo α) : Option (α × Fifo α) :=
  match f.queue with
  | [] => none
  | x :: rest => some (x, { f with queue := rest })

/-- Whoever is seated leaves the seat, anybody else the first of their places in the queue. -/
def remove [DecidableEq α] (x : α) (f : Fifo α) : Option (Fifo α) :=
  if f.seat = some x then some { f with seat := none }
  else if x ∈ f.queue then some { f with queue := f.queue.erase x }
  else none

/-- Who was at the front, whether they took the seat, and the queue after that. -/
def dispatch (may : α → Bool) (f : Fifo α) : Option (α × Bool × Fifo α) :=
  match f.seat, f.queue with
  | none, x :: rest => some (x, if may x then (true, ⟨rest, some x⟩) else (false, ⟨rest ++ [x], none⟩))
  | _, _ => none

def yield (cap : Nat) (may : α → Bool) (f : Fifo α) : Option (α × Fifo α) :=
  match f.seat with
  | none => none
  | some x => if f.queue.length < cap ∧ may x then some (x, ⟨f.queue ++ [x], none⟩) else none

theorem dispatch_eq_none (may : α → Bool) (f : Fifo α) : f.dispatch may = none ↔ f.seat ≠ none ∨ f.queue = [] := by
  rcases f with ⟨_ | ⟨x, rest⟩, _ | y⟩ <;> simp [dispatch]

end Fifo

end Lib
