/-
A heap of cells of one type: an address is handed out once and never again, so a pointer that
outlives its cell still names that cell and no other. Reads and writes are total; whether a
pointer is still owned by somebody is a property of the structures that hold it, not of the heap.
-/
import Mathlib.Logic.Function.Basic
import Mathlib.Tactic

namespace Lib

/-- The cells and the next address to hand out. -/
structure Heap (α : Type) where
  cells : Nat → α
  next : Nat

namespace Heap

variable {α : Type}

/-- An empty heap; `junk` is what an address that was never handed out reads as. -/
def empty (junk : α) : Heap α := ⟨fun _ => junk, 0⟩

def read (h : Heap α) (p : Nat) : α := h.cells p

def modify (h : Heap α) (p : Nat) (f : α → α) : Heap α :=
  { h with cells := Function.update h.cells p (f (h.cells p)) }

/-- A fresh cell holding `a`: its address and the heap with it. -/
def alloc (h : Heap α) (a : α) : Nat × Heap α :=
  (h.next, ⟨Function.update h.cells h.next a, h.next + 1⟩)

@[simp] theorem read_modify_self (h : Heap α) (p : Nat) (f : α → α) :
    (h.modify p f).read p = f (h.read p) := by
  simp [read, modify]

theorem read_modify_of_ne (h : Heap α) {p q : Nat} (f : α → α) (hq : q ≠ p) :
    (h.modify p f).read q = h.read q := by
  simp [read, modify, Function.update_of_ne hq]

theorem read_modify (h : Heap α) (p q : Nat) (f : α → α) :
    (h.modify p f).read q = if q = p then f (h.read p) else h.read q := by
  split
  · rename_i hq; subst hq; exact read_modify_self h q f
  · rename_i hq; exact read_modify_of_ne h f hq

@[simp] theorem next_modify (h : Heap α) (p : Nat) (f : α → α) : (h.modify p f).next = h.next := rfl

theorem modify_congr (h : Heap α) {p : Nat} {f g : α → α} (hfg : f (h.read p) = g (h.read p)) :
    h.modify p f = h.modify p g := by
  unfold modify
  rw [show f (h.cells p) = g (h.cells p) from hfg]

theorem modify_fixed (h : Heap α) {p : Nat} {f : α → α} (hf : f (h.read p) = h.read p) : h.modify p f = h := by
  unfold modify
  rw [show f (h.cells p) = h.cells p from hf, Function.update_eq_self]

@[simp] theorem modify_modify (h : Heap α) (p : Nat) (f g : α → α) :
    (h.modify p f).modify p g = h.modify p fun a => g (f a) := by
  simp [modify, Function.update_idem]

/-- A field that `f` keeps reads the same at every address. -/
theorem field_modify {β : Type} (h : Heap α) (p q : Nat) (f : α → α) (field : α → β)
    (hf : field (f (h.read p)) = field (h.read p)) :
    field ((h.modify p f).read q) = field (h.read q) := by
  rw [read_modify]
  split
  · rename_i hq; subst hq; exact hf
  · rfl

@[simp] theorem alloc_fst (h : Heap α) (a : α) : (h.alloc a).1 = h.next := rfl

@[simp] theorem next_alloc (h : Heap α) (a : α) : (h.alloc a).2.next = h.next + 1 := rfl

@[simp] theorem read_alloc_self (h : Heap α) (a : α) : (h.alloc a).2.read h.next = a := by
  simp [read, alloc]

theorem read_alloc_of_ne (h : Heap α) (a : α) {p : Nat} (hp : p ≠ h.next) :
    (h.alloc a).2.read p = h.read p := by
  simp [read, alloc, Function.update_of_ne hp]

theorem read_alloc_of_lt (h : Heap α) (a : α) {p : Nat} (hp : p < h.next) :
    (h.alloc a).2.read p = h.read p :=
  read_alloc_of_ne h a (by omega)

end Heap

end Lib
