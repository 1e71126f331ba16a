/-
Runs of a machine with operations: each operation either has not returned (`none`) or leads to the
next state, and may be used only where a guard allows it.
-/
import Mathlib.Order.Basic

namespace Lib

variable {S Op : Type} {exec : Op → S → Option S} {ok ok' : S → Op → Prop} {s s' s'' : S}

/-- A run each of whose operations meets `ok` in the state it starts in. -/
inductive Runs (exec : Op → S → Option S) (ok : S → Op → Prop) : S → S → Prop
  | refl (s : S) : Runs exec ok s s
  | step {s s' s'' : S} {op : Op} (h : Runs exec ok s s') (hok : ok s' op) (hx : exec op s' = some s'') :
      Runs exec ok s s''

namespace Runs

/-- What the operations that meet `ok` keep holds in every state of a run made of them. -/
theorem holds {I : S → Prop} (hexec : ∀ s s' op, I s → ok s op → exec op s = some s' → I s')
    (h : Runs exec ok s s') (hs : I s) : I s' := by
  induction h with
  | refl => exact hs
  | step _ hok hx ih => exact hexec _ _ _ ih hok hx

theorem mono (hok : ∀ s op, ok s op → ok' s op) (h : Runs exec ok s s') : Runs exec ok' s s' := by
  induction h with
  | refl => exact .refl _
  | step _ ho hx ih => exact .step ih (hok _ _ ho) hx

/-- One operation more. -/
theorem next (h : Runs exec ok s s') (op : Op) (hok : ok s' op) (hx : exec op s' = some s'') : Runs exec ok s s'' :=
  .step h hok hx

theorem trans (h : Runs exec ok s s') (h' : Runs exec ok s' s'') : Runs exec ok s s'' := by
  induction h' with
  | refl => exact h
  | step _ hok hx ih => exact .step ih hok hx

end Runs

end Lib
