/-
Deletion from an unordered table kept in the first slots of an array: the last entry moves into
the freed slot. As a list: the last element is written at the index and the end is dropped. The
result is the table without that entry, up to order; removing the entry appended last gives the
table back unchanged.
-/
import Mathlib.Data.List.Perm.Basic
import Mathlib.Data.List.Nodup
import Mathlib.Tactic

namespace Lib

variable {α : Type}

/-- Move the last element into slot `i` and drop the end. -/
def swapRemove (l : List α) (i : Nat) : List α :=
  match l.getLast? with
  | none => l
  | some last => (l.set i last).dropLast

theorem swapRemove_snoc (l : List α) (x : α) (i : Nat) :
    swapRemove (l ++ [x]) i = ((l ++ [x]).set i x).dropLast := by
  simp [swapRemove]

/-- Removing the entry that was appended last restores the table, order included. -/
theorem swapRemove_last (l : List α) (x : α) : swapRemove (l ++ [x]) l.length = l := by
  rw [swapRemove_snoc, List.set_append_right _ _ (le_refl _)]
  simp

theorem swapRemove_perm (l : List α) {i : Nat} (hi : i < l.length) : (swapRemove l i).Perm (l.eraseIdx i) := by
  rcases List.eq_nil_or_concat' l with rfl | ⟨l, x, rfl⟩
  · simp at hi
  rw [swapRemove_snoc]
  simp only [List.length_append, List.length_singleton] at hi
  by_cases h : i < l.length
  · rw [List.set_append_left _ _ h, List.dropLast_concat, List.eraseIdx_append_of_lt_length h]
    exact (List.set_perm_cons_eraseIdx h x).trans (List.perm_append_singleton x _).symm
  · have hi' : i = l.length := by omega
    subst hi'
    rw [List.set_append_right _ _ (le_refl _), List.eraseIdx_append_of_length_le (le_refl _)]
    simp

theorem length_swapRemove (l : List α) {i : Nat} (hi : i < l.length) :
    (swapRemove l i).length + 1 = l.length := by
  rw [(swapRemove_perm l hi).length_eq, List.length_eraseIdx_of_lt hi]
  omega

theorem mem_of_mem_swapRemove {l : List α} {i : Nat} (hi : i < l.length) {x : α}
    (hx : x ∈ swapRemove l i) : x ∈ l :=
  List.mem_of_mem_eraseIdx ((swapRemove_perm l hi).mem_iff.1 hx)

theorem nodup_swapRemove {l : List α} {i : Nat} (hi : i < l.length) (hl : l.Nodup) :
    (swapRemove l i).Nodup :=
  (swapRemove_perm l hi).nodup_iff.2 (hl.eraseIdx i)

/-- In a table without duplicates exactly the entry of the slot goes. -/
theorem mem_swapRemove {l : List α} {i : Nat} (hi : i < l.length) (hl : l.Nodup) (x : α) :
    x ∈ swapRemove l i ↔ x ∈ l ∧ x ≠ l[i] := by
  rw [(swapRemove_perm l hi).mem_iff]
  have hp := List.getElem_cons_eraseIdx_perm hi
  have hnd : (l[i] :: l.eraseIdx i).Nodup := hp.nodup_iff.2 hl
  constructor
  · intro hx
    refine ⟨List.mem_of_mem_eraseIdx hx, ?_⟩
    rintro rfl
    exact (List.nodup_cons.1 hnd).1 hx
  · rintro ⟨hx, hne⟩
    rcases List.mem_cons.1 (hp.mem_iff.2 hx) with h | h
    · exact absurd h hne
    · exact h

/-- Slot by slot: the last entry is in the freed slot, the others are where they were. -/
theorem getElem?_swapRemove (l : List α) {i : Nat} (hi : i < l.length) (j : Nat) :
    (swapRemove l i)[j]? = if j + 1 < l.length then if j = i then l.getLast? else l[j]? else none := by
  rcases List.eq_nil_or_concat' l with rfl | ⟨l, x, rfl⟩
  · simp at hi
  rw [swapRemove_snoc, List.getElem?_dropLast, List.length_set, List.getElem?_set]
  simp only [List.length_append, List.length_singleton, Nat.add_sub_cancel, Nat.add_lt_add_iff_right, List.getLast?_concat] at hi ⊢
  by_cases hj : j < l.length
  · rw [if_pos hj, if_pos hj]
    by_cases hij : i = j
    · rw [if_pos hij, if_pos hi, if_pos hij.symm]
    · rw [if_neg hij, if_neg fun h => hij h.symm]
  · rw [if_neg hj, if_neg hj]

theorem map_swapRemove {β : Type} (f : α → β) (l : List α) (i : Nat) :
    (swapRemove l i).map f = swapRemove (l.map f) i := by
  rcases List.eq_nil_or_concat' l with rfl | ⟨l, x, rfl⟩
  · rfl
  · rw [swapRemove_snoc, List.map_append, List.map_cons, List.map_nil, swapRemove_snoc, List.map_dropLast,
      List.map_set, List.map_append, List.map_cons, List.map_nil]

/-- A mapped table without duplicates keeps that property. -/
theorem nodup_map_swapRemove {β : Type} {l : List α} {i : Nat} (hi : i < l.length) (f : α → β)
    (hl : (l.map f).Nodup) : ((swapRemove l i).map f).Nodup := by
  refine ((swapRemove_perm l hi).map f).nodup_iff.2 ?_
  exact hl.sublist ((List.eraseIdx_sublist l i).map f)

end Lib
