/-
Walking the process table with `process_manager_first` and `process_manager_next` while processes that
the walk has returned are destroyed. A destruction sets the shared cursor back to slot 0, which the next
call takes for the slot it returned last. So the walk goes on right after destructions when slot 0 holds
the one process returned so far that is still tracked, and otherwise skips or repeats one.
-/
import EmblaOs.Process.Table

namespace EmblaOs

open Lib

/-! ## A walk -/

structure Walk where
  heap : Heap Process
  manager : ProcessManager
  /-- the processes returned, latest first -/
  returned : List ProcessPtr
  /-- has NULL been returned -/
  ended : Bool
  /-- has a process been destroyed since the walk went on last -/
  disturbed : Bool

/-- The call of `process_manager_first`. -/
def walkFirst (heap : Heap Process) (manager : ProcessManager) : Walk :=
  match processManagerFirst manager with
  | (none, manager) => ⟨heap, manager, [], true, false⟩
  | (some p, manager) => ⟨heap, manager, [p], false, false⟩

inductive WalkOp
  | next
  | destroy (id : Nat)
  /-- what everybody else does to the records meanwhile -/
  | others (heap : Heap Process)

def WalkOp.exec : WalkOp → Walk → Option Walk
  | .next, x =>
    match processManagerNext x.manager with
    | (none, manager) => some { x with manager := manager, ended := true, disturbed := false }
    | (some p, manager) => some { x with manager := manager, returned := p :: x.returned, disturbed := false }
  | .destroy id, x =>
    match processManagerDestroyProcess x.heap x.manager id with
    | (0, manager) => some { x with manager := manager, disturbed := true }
    | (_, manager) => some { x with manager := manager }
  | .others heap, x => some { x with heap := heap }

/-- Until NULL only processes that were returned are destroyed; ids do not change. -/
def WalkOp.Allowed (x : Walk) (op : WalkOp) : Prop :=
  x.ended = false ∧
    match op with
    | .next => True
    | .destroy id => ∀ p ∈ x.manager.processes, (x.heap.read p).id = id → p ∈ x.returned
    | .others heap => x.heap.next ≤ heap.next ∧ ∀ p ∈ x.manager.processes, (heap.read p).id = (x.heap.read p).id

/-- Every process that is tracked was returned once. -/
def Walk.EachOnce (x : Walk) : Prop := ∀ p ∈ x.manager.processes, x.returned.count p = 1

/-- Of the processes returned so far the one in slot 0 is tracked, and no other; or no process is. -/
def Walk.OnlyFront (x : Walk) : Prop := ∀ (i : Nat) p, x.manager.processes[i]? = some p → (p ∈ x.returned ↔ i = 0)

/-- After destructions the walk goes on only from such a state. -/
def WalkOp.Orderly (x : Walk) : WalkOp → Prop
  | .next => x.disturbed = true → x.OnlyFront
  | _ => True

/-! ## One step -/

/-- The slots up to the cursor hold what was returned. -/
def Walk.InOrder (x : Walk) : Prop :=
  ∀ (i : Nat) p, x.manager.processes[i]? = some p → (p ∈ x.returned ↔ i ≤ x.manager.iteratorIndex)

structure Walk.Inv (x : Walk) : Prop where
  table : TableInv x.heap x.manager
  once : ∀ p ∈ x.manager.processes, x.returned.count p ≤ 1
  cursor : x.disturbed = true → x.manager.iteratorIndex = 0
  order : x.ended = false → x.disturbed = false → x.InOrder
  ended : x.ended = true → ∀ p ∈ x.manager.processes, p ∈ x.returned

section Steps

variable {heap heap' : Heap Process} {manager : ProcessManager} {x y : Walk}

theorem processManagerNext_end (h : manager.processes.length ≤ manager.iteratorIndex + 1) :
    processManagerNext manager = (none, manager) :=
  if_pos h

theorem processManagerNext_slot {p : ProcessPtr} (hp : manager.processes[manager.iteratorIndex + 1]? = some p) :
    processManagerNext manager = (some p, { manager with iteratorIndex := manager.iteratorIndex + 1 }) := by
  have hlt := (List.getElem?_eq_some_iff.1 hp).1
  unfold processManagerNext
  rw [if_neg (by omega)]
  simp only [hp]

/-- An entry has one slot. -/
theorem TableInv.slot_unique (h : TableInv heap manager) {i j : Nat} {p : ProcessPtr}
    (hi : manager.processes[i]? = some p) (hj : manager.processes[j]? = some p) : i = j := by
  obtain ⟨hi', hi⟩ := List.getElem?_eq_some_iff.1 hi
  obtain ⟨hj', hj⟩ := List.getElem?_eq_some_iff.1 hj
  exact (List.Nodup.getElem_inj_iff h.keyed.nodup).1 (hi.trans hj.symm)

/-- What is returned for the first time is returned once. -/
theorem count_returned {returned : List ProcessPtr} {p q : ProcessPtr} (hnew : p ∉ returned)
    (hle : returned.count q ≤ 1) : (p :: returned).count q ≤ 1 := by
  rcases eq_or_ne q p with rfl | hne
  · rw [List.count_cons_self, List.count_eq_zero_of_not_mem hnew]
  · rwa [List.count_cons_of_ne hne.symm]

/-- Whoever waits behind the cursor is returned for the first time. -/
theorem Walk.Inv.next (h : x.Inv) (hopen : x.ended = false) (horder : x.InOrder) (hx : WalkOp.next.exec x = some y) :
    y.Inv := by
  simp only [WalkOp.exec] at hx
  cases hp : x.manager.processes[x.manager.iteratorIndex + 1]? with
  | none =>
    have hle : x.manager.processes.length ≤ x.manager.iteratorIndex + 1 := List.getElem?_eq_none_iff.1 hp
    rw [processManagerNext_end hle] at hx
    cases hx
    refine ⟨h.table, h.once, by simp, by simp, fun _ p hmem => ?_⟩
    obtain ⟨i, hi⟩ := List.getElem?_of_mem hmem
    have hlt : i < x.manager.processes.length := (List.getElem?_eq_some_iff.1 hi).1
    exact (horder i p hi).2 (by omega)
  | some p =>
    have hnew : p ∉ x.returned := fun hin => by
      have := (horder _ p hp).1 hin
      omega
    rw [processManagerNext_slot hp] at hx
    cases hx
    refine ⟨h.table.skip (le_refl _) h.table.nextHi _, fun q hq => count_returned hnew (h.once q hq), by simp,
      fun _ _ i q hi => ?_, fun hend => ?_⟩
    · rw [List.mem_cons, horder i q hi]
      constructor
      · rintro (rfl | hle)
        · exact Nat.le_of_eq (h.table.slot_unique hi hp)
        · exact Nat.le_succ_of_le hle
      · intro hle
        rcases Nat.lt_or_eq_of_le hle with hlt | rfl
        · exact .inr (Nat.le_of_lt_succ hlt)
        · exact .inl (Option.some.inj (hi.symm.trans hp))
    · have hend : x.ended = true := hend
      rw [hopen] at hend
      cases hend

theorem WalkOp.inv {op : WalkOp} (h : x.Inv) (hok : op.Allowed x) (horderly : op.Orderly x) (hx : op.exec x = some y) :
    y.Inv := by
  cases op with
  | next =>
    refine h.next hok.1 ?_ hx
    cases hd : x.disturbed with
    | false => exact h.order hok.1 hd
    | true =>
      -- the cursor is at slot 0
      intro i p hi
      rw [horderly hd i p hi, h.cursor hd]
      omega
  | destroy id =>
    simp only [WalkOp.exec] at hx
    rcases h.table.destroy_cases id with ⟨hd, -⟩ | ⟨index, p, hslot, rfl, hd⟩ <;> rw [hd] at hx <;> cases hx
    · exact h
    · have hi := (List.getElem?_eq_some_iff.1 hslot).1
      exact ⟨h.table.swapRemove hi 0, fun q hq => h.once q (mem_of_mem_swapRemove hi hq), fun _ => rfl, by simp,
        fun hend => by rw [hok.1] at hend; cases hend⟩
  | others heap =>
    cases hx
    exact ⟨h.table.of_ids hok.2.1 hok.2.2, h.once, h.cursor, h.order, h.ended⟩

theorem walkFirst_inv (h : TableInv heap manager) : (walkFirst heap manager).Inv := by
  unfold walkFirst processManagerFirst
  by_cases hempty : manager.processes.length = 0
  · rw [if_pos hempty]
    have hnil : manager.processes = [] := List.length_eq_zero_iff.1 hempty
    exact ⟨h, by simp [hnil], by simp, by simp, by simp [hnil]⟩
  · have hpos : 0 < manager.processes.length := Nat.pos_of_ne_zero hempty
    have hzero : manager.processes[0]? = some manager.processes[0] := List.getElem?_eq_getElem hpos
    rw [if_neg hempty]
    simp only [hzero]
    refine ⟨h.skip (le_refl _) h.nextHi _, fun q hq => ?_, by simp, fun _ _ i q hi => ?_, by simp⟩
    · rw [List.count_singleton]
      split <;> omega
    · rw [List.mem_singleton]
      constructor
      · rintro rfl
        exact Nat.le_of_eq (h.slot_unique hi hzero)
      · intro hle
        have hi0 : i = 0 := Nat.le_zero.1 hle
        subst hi0
        exact Option.some.inj (hi.symm.trans hzero)

/-- The walk is over, and each process that has stayed was returned once. -/
theorem Walk.Inv.eachOnce (h : x.Inv) (hend : x.ended = true) : x.EachOnce := by
  intro p hp
  have hpos : 0 < x.returned.count p := List.count_pos_iff.2 (h.ended hend p hp)
  have hle := h.once p hp
  omega

end Steps

/-! ## The rest of a walk without destructions -/

section Rest

variable {x : Walk}

/-- Nothing but calls of `process_manager_next`. -/
abbrev WalkRest : Walk → Walk → Prop := Runs WalkOp.exec fun x op => op.Allowed x ∧ op = .next

/-- Whatever is behind the cursor is returned, in the order of the slots. -/
theorem walkRest_ends : ∀ (rest : List ProcessPtr) (x : Walk), x.ended = false →
    x.manager.processes.drop (x.manager.iteratorIndex + 1) = rest →
    ∃ y, WalkRest x y ∧ y.ended = true ∧ y.manager.processes = x.manager.processes ∧ y.returned = rest.reverse ++ x.returned
  | [], x, hopen, hrest => by
    have hle : x.manager.processes.length ≤ x.manager.iteratorIndex + 1 := List.drop_eq_nil_iff.1 hrest
    have hx : WalkOp.next.exec x = some { x with ended := true, disturbed := false } := by
      simp only [WalkOp.exec, processManagerNext_end hle]
    exact ⟨_, (Runs.refl x).next .next ⟨⟨hopen, trivial⟩, rfl⟩ hx, rfl, rfl, rfl⟩
  | p :: rest, x, hopen, hrest => by
    have hslot : x.manager.processes[x.manager.iteratorIndex + 1]? = some p := by
      rw [← List.head?_drop, hrest]
      rfl
    have hx : WalkOp.next.exec x = some { x with
        manager := { x.manager with iteratorIndex := x.manager.iteratorIndex + 1 }
        returned := p :: x.returned
        disturbed := false } := by
      simp only [WalkOp.exec, processManagerNext_slot hslot]
    have hdrop : x.manager.processes.drop (x.manager.iteratorIndex + 1 + 1) = rest := by
      rw [← List.tail_drop, hrest]
      rfl
    obtain ⟨y, hy, hend, hsame, hret⟩ := walkRest_ends rest { x with
      manager := { x.manager with iteratorIndex := x.manager.iteratorIndex + 1 }
      returned := p :: x.returned
      disturbed := false } hopen hdrop
    refine ⟨y, ?_, hend, hsame, ?_⟩
    · exact Runs.trans ((Runs.refl x).next .next ⟨⟨hopen, trivial⟩, rfl⟩ hx) hy
    · rw [hret]
      simp

theorem count_drop {l : List ProcessPtr} (hl : l.Nodup) {i : Nat} {p : ProcessPtr} (hi : l[i]? = some p) (k : Nat) :
    (l.drop k).count p = if k ≤ i then 1 else 0 := by
  obtain ⟨hlt, hget⟩ := List.getElem?_eq_some_iff.1 hi
  rw [List.Nodup.count (hl.sublist (List.drop_sublist k l))]
  congr 1
  rw [eq_iff_iff, List.mem_drop_iff_getElem]
  constructor
  · rintro ⟨j, hj, heq⟩
    have := (List.Nodup.getElem_inj_iff hl).1 (heq.trans hget.symm)
    omega
  · intro hle
    refine ⟨i - k, by omega, ?_⟩
    simp only [Nat.add_sub_cancel' hle]
    exact hget

/-- Without further destructions the walk comes out right exactly from a state that is in order. -/
theorem Walk.Inv.rest_iff (h : x.Inv) (hopen : x.ended = false) :
    ∃ y, WalkRest x y ∧ y.ended = true ∧ (y.EachOnce ↔ x.InOrder) := by
  obtain ⟨y, hy, hend, hsame, hret⟩ := walkRest_ends _ x hopen rfl
  refine ⟨y, hy, hend, ?_⟩
  have hcount : ∀ (i : Nat) p, x.manager.processes[i]? = some p →
      (y.returned.count p = 1 ↔ (p ∈ x.returned ↔ i ≤ x.manager.iteratorIndex)) := by
    intro i p hi
    have hle := h.once p (List.mem_of_getElem? hi)
    rw [hret, List.count_append, List.count_reverse, count_drop h.table.keyed.nodup hi]
    by_cases hin : p ∈ x.returned
    · have hpos : 0 < x.returned.count p := List.count_pos_iff.2 hin
      simp only [hin, true_iff]
      split <;> omega
    · rw [List.count_eq_zero_of_not_mem hin]
      simp only [hin, false_iff]
      split <;> omega
  constructor
  · intro heach i p hi
    exact (hcount i p hi).1 (heach p (by rw [hsame]; exact List.mem_of_getElem? hi))
  · intro horder p hp
    rw [hsame] at hp
    obtain ⟨i, hslot⟩ := List.getElem?_of_mem hp
    exact (hcount i p hslot).2 (horder i p hslot)

end Rest

end EmblaOs
