/-
Topological orders as lists: in a list that respects a relation, whatever an element stands on
occurs before it. Such a list is closed under the relation and under its transitive closure, and
no element of it lies on a cycle, so exhibiting one is a proof of acyclicity.
-/
import Mathlib.Logic.Relation
import Mathlib.Data.List.Nodup
import Mathlib.Tactic

namespace Lib.Topological

open Relation

variable {α : Type} {r : α → α → Prop} {l : List α}

/-- Everything an element stands on occurs before it. -/
def Respects (r : α → α → Prop) (l : List α) : Prop :=
  ∀ before a after, l = before ++ a :: after → ∀ b, r a b → b ∈ before

theorem respects_nil : Respects r [] := by
  intro before a after h
  simp at h

/-- An element whose requirements are all listed may be appended. -/
theorem Respects.snoc (h : Respects r l) {a : α} (ha : ∀ b, r a b → b ∈ l) : Respects r (l ++ [a]) := by
  intro before c after heq b hb
  rcases List.eq_nil_or_concat' after with rfl | ⟨after', z, rfl⟩
  · obtain ⟨h1, h2⟩ := List.append_inj' heq rfl
    cases h2
    exact h1 ▸ ha b hb
  · have heq' : l ++ [a] = (before ++ c :: after') ++ [z] := by simpa using heq
    exact h before c after' (List.append_inj' heq' rfl).1 b hb

/-- What an element stands on, directly or not, occurs before it. -/
theorem Respects.transGen (h : Respects r l) {before after : List α} {a b : α}
    (heq : l = before ++ a :: after) (hab : TransGen r a b) : b ∈ before := by
  induction hab with
  | single hb => exact h before a after heq _ hb
  | @tail c d _ hcd ih =>
    obtain ⟨pre, post, rfl⟩ := List.append_of_mem ih
    have : d ∈ pre := h pre c (post ++ a :: after) (by simpa using heq) d hcd
    exact List.mem_append_left _ this

theorem Respects.acyclic (h : Respects r l) (hn : l.Nodup) {a : α} (ha : a ∈ l) : ¬ TransGen r a a := by
  intro haa
  obtain ⟨before, after, rfl⟩ := List.append_of_mem ha
  have hmem := h.transGen rfl haa
  have := List.disjoint_of_nodup_append hn hmem
  simp at this

/-- Positions: what an element stands on, directly or not, has a smaller index. -/
theorem Respects.idxOf_lt [DecidableEq α] (h : Respects r l) (hn : l.Nodup) {a b : α} (ha : a ∈ l)
    (hab : TransGen r a b) : l.idxOf b < l.idxOf a := by
  obtain ⟨before, after, rfl⟩ := List.append_of_mem ha
  have hb := h.transGen rfl hab
  have hna : a ∉ before := fun hmem => by
    have := List.disjoint_of_nodup_append hn hmem
    simp at this
  rw [List.idxOf_append_of_mem hb, List.idxOf_append_of_notMem hna]
  have := List.idxOf_lt_length_iff.2 hb
  omega

/-- Along such a list a property may be proved of an element from the elements it stands on. -/
theorem Respects.induction (h : Respects r l) {P : α → Prop} (hstep : ∀ a ∈ l, (∀ b, r a b → P b) → P a) :
    ∀ a ∈ l, P a := by
  suffices hall : ∀ n before a after, before.length = n → l = before ++ a :: after → P a by
    intro a ha
    obtain ⟨before, after, heq⟩ := List.append_of_mem ha
    exact hall _ before a after rfl heq
  intro n
  induction n using Nat.strong_induction_on with
  | _ n ih =>
    intro before a after hlen heq
    have ha : a ∈ l := by
      rw [heq]
      exact List.mem_append_right _ List.mem_cons_self
    refine hstep a ha fun b hb => ?_
    -- `b` stands before `a`, so fewer elements stand before it
    obtain ⟨pre, post, rfl⟩ := List.append_of_mem (h before a after heq b hb)
    refine ih pre.length ?_ pre b (post ++ a :: after) rfl (by simpa using heq)
    rw [← hlen, List.length_append, List.length_cons]
    omega

end Lib.Topological
