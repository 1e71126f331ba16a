/-
Positions in a trace: a trace is a list of events, first to last, and what happened before an event
is the part of the list before it.
-/
import Mathlib.Data.List.Basic

namespace Lib

variable {α : Type} {l l' pre post : List α} {a b : α}

/-- An event of a trace made of two is an event of the first or of the second. -/
theorem split_append (h : l ++ l' = pre ++ a :: post) :
    (∃ post', l = pre ++ a :: post') ∨ ∃ pre', pre = l ++ pre' ∧ l' = pre' ++ a :: post := by
  rcases List.append_eq_append_iff.1 h with ⟨mid, hpre, hl'⟩ | ⟨mid, hl, hpost⟩
  · exact .inr ⟨mid, hpre, hl'⟩
  · cases mid with
    | nil => exact .inr ⟨[], by simpa using hl.symm, hpost.symm⟩
    | cons c mid =>
      rw [List.cons_append, List.cons.injEq] at hpost
      obtain ⟨rfl, -⟩ := hpost
      exact .inl ⟨mid, hl⟩

/-- The one event of a kind in a trace. -/
theorem split_unique {P : α → Prop} (hl : ∀ c ∈ l, ¬ P c) (hl' : ∀ c ∈ l', ¬ P c)
    (h : l ++ a :: l' = pre ++ b :: post) (hb : P b) : pre = l ∧ b = a := by
  rcases split_append h with ⟨post', hl₁⟩ | ⟨pre', rfl, hpre'⟩
  · refine absurd hb (hl b ?_)
    rw [hl₁]
    exact List.mem_append_right _ List.mem_cons_self
  · cases pre' with
    | nil =>
      rw [List.nil_append, List.cons.injEq] at hpre'
      exact ⟨List.append_nil l, hpre'.1.symm⟩
    | cons c pre' =>
      rw [List.cons_append, List.cons.injEq] at hpre'
      refine absurd hb (hl' b ?_)
      rw [hpre'.2]
      exact List.mem_append_right _ List.mem_cons_self

end Lib
