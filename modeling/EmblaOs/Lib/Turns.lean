/-
Waiting in a queue. New elements join at the back, whoever is at the front takes a turn and may join
again, and some may leave from anywhere. Whoever stays has a turn after those that were ahead: each of
them that stays too, in their order, and nobody else.
-/
import Mathlib.Data.List.Basic

namespace Lib

variable {α : Type} [DecidableEq α]

/-- What can happen to a queue, with whoever takes a turn. -/
inductive QueueStep (Leaves : α → Prop) : List α → Option α → List α → Prop
  | same (q : List α) : QueueStep Leaves q none q
  | joined (q : List α) (x : α) : QueueStep Leaves q none (q ++ [x])
  | left (q : List α) (x : α) (h : Leaves x) : QueueStep Leaves q none (q.erase x)
  | turn (x : α) (rest : List α) : QueueStep Leaves (x :: rest) (some x) rest
  | turnBack (x : α) (rest : List α) : QueueStep Leaves (x :: rest) (some x) (rest ++ [x])

/-- Steps one after the other, with the turns in their order. -/
inductive QueueRun (Leaves : α → Prop) : List α → List α → List α → Prop
  | refl (q : List α) : QueueRun Leaves q [] q
  | step {q q' q'' turns : List α} {turn : Option α} (h : QueueStep Leaves q turn q')
      (hr : QueueRun Leaves q' turns q'') : QueueRun Leaves q (turn.toList ++ turns) q''

/-- `x` waits behind `ahead`. -/
def Waiting (x : α) (ahead q : List α) : Prop := ∃ behind, q = ahead ++ x :: behind ∧ x ∉ ahead

/-! ## Some have left -/

/-- `l` is `l'` in its order, less some of those that may leave. -/
structure Thinned (Leaves : α → Prop) (l l' : List α) : Prop where
  order : l.Sublist l'
  kept : ∀ y, ¬ Leaves y → l.count y = l'.count y

variable {Leaves : α → Prop} {q q' l l' l'' turns ahead : List α} {x : α}

namespace Thinned

theorem refl (l : List α) : Thinned Leaves l l := ⟨.refl l, fun _ _ => rfl⟩

theorem trans (h : Thinned Leaves l l') (h' : Thinned Leaves l' l'') : Thinned Leaves l l'' :=
  ⟨h.order.trans h'.order, fun y hy => (h.kept y hy).trans (h'.kept y hy)⟩

theorem erase (hx : Leaves x) (l : List α) : Thinned Leaves (l.erase x) l := by
  refine ⟨List.erase_sublist, fun y hy => List.count_erase_of_ne ?_⟩
  rintro rfl
  exact hy hx

theorem append_left (h : Thinned Leaves l l') (first : List α) : Thinned Leaves (first ++ l) (first ++ l') :=
  ⟨h.order.append_left first, fun y hy => by rw [List.count_append, List.count_append, h.kept y hy]⟩

end Thinned

/-! ## Waiting -/

/-- Whoever waits has the turn, or waits on behind those that are left. -/
theorem QueueStep.waiting {turn : Option α} (h : QueueStep Leaves q turn q') (hx : ¬ Leaves x)
    (hw : Waiting x ahead q) :
    (turn = some x ∧ ahead = []) ∨ ∃ ahead', Waiting x ahead' q' ∧ Thinned Leaves (turn.toList ++ ahead') ahead := by
  obtain ⟨behind, hq, hnot⟩ := hw
  cases h with
  | same => exact .inr ⟨ahead, ⟨behind, hq, hnot⟩, .refl ahead⟩
  | joined _ y =>
    refine .inr ⟨ahead, ⟨behind ++ [y], ?_, hnot⟩, .refl ahead⟩
    rw [hq, List.append_assoc, List.cons_append]
  | left _ y hy =>
    have hne : x ≠ y := by
      rintro rfl
      exact hx hy
    rw [hq]
    by_cases hin : y ∈ ahead
    · exact .inr ⟨ahead.erase y, ⟨behind, List.erase_append_left _ hin, fun hc => hnot (List.mem_of_mem_erase hc)⟩,
        .erase hy ahead⟩
    · refine .inr ⟨ahead, ⟨behind.erase y, ?_, hnot⟩, .refl ahead⟩
      rw [List.erase_append_right _ hin, List.erase_cons_tail (by simpa using hne)]
  | turn y =>
    cases ahead with
    | nil =>
      cases hq
      exact .inl ⟨rfl, rfl⟩
    | cons z ahead =>
      obtain ⟨rfl, rfl⟩ := List.cons.inj hq
      exact .inr ⟨ahead, ⟨behind, rfl, fun hc => hnot (List.mem_cons_of_mem _ hc)⟩, .refl _⟩
  | turnBack y =>
    cases ahead with
    | nil =>
      cases hq
      exact .inl ⟨rfl, rfl⟩
    | cons z ahead =>
      obtain ⟨rfl, rfl⟩ := List.cons.inj hq
      exact .inr ⟨ahead, ⟨behind ++ [y], List.append_assoc ahead (x :: behind) [y],
        fun hc => hnot (List.mem_cons_of_mem _ hc)⟩, .refl _⟩

/-- The first turn of `x` comes right after those that were ahead, or `x` still waits behind the rest of
them. -/
theorem QueueRun.waiting (h : QueueRun Leaves q turns q') (hx : ¬ Leaves x) (hw : Waiting x ahead q) :
    (∃ before after, turns = before ++ x :: after ∧ Thinned Leaves before ahead) ∨
    ∃ ahead', Waiting x ahead' q' ∧ Thinned Leaves (turns ++ ahead') ahead := by
  induction h generalizing ahead with
  | refl => exact .inr ⟨ahead, hw, .refl ahead⟩
  | @step _ _ _ turns turn hstep _ ih =>
    rcases hstep.waiting hx hw with ⟨rfl, rfl⟩ | ⟨mid, hmid, hthin⟩
    · exact .inl ⟨[], turns, rfl, .refl []⟩
    rcases ih hmid with ⟨before, after, rfl, hb⟩ | ⟨ahead', hw', ha⟩
    · exact .inl ⟨turn.toList ++ before, after, by rw [List.append_assoc], (hb.append_left _).trans hthin⟩
    · refine .inr ⟨ahead', hw', ?_⟩
      rw [List.append_assoc]
      exact (ha.append_left _).trans hthin

end Lib
