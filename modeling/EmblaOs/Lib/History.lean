/-
Histories: an event comes before those that happened earlier, so what was known when it happened is
the list behind it.
-/
import Mathlib.Data.List.Basic

namespace Lib

variable {α : Type} {ok : List α → α → Prop} {a : α} {l later earlier : List α}

/-- Every event is as `ok` demands, given the events before it. -/
def Each (ok : List α → α → Prop) : List α → Prop
  | [] => True
  | a :: earlier => ok earlier a ∧ Each ok earlier

@[simp] theorem each_nil : Each ok [] := trivial

@[simp] theorem each_cons : Each ok (a :: l) ↔ ok l a ∧ Each ok l := Iff.rfl

theorem Each.at (h : Each ok (later ++ a :: earlier)) : ok earlier a := by
  induction later with
  | nil => exact h.1
  | cons b later ih => exact ih h.2

end Lib
