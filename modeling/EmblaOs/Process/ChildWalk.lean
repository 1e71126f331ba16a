/-
Walking the children of a process with a child iterator while those it has returned are destroyed. A
destruction moves the last entry of the table into a slot that the iterator has passed, so an entry that
it has not looked at yet is lost to it: the walk is right as long as that entry is no child, and a child
that is moved so is never returned.
-/
import EmblaOs.Process.Walk

namespace EmblaOs

open Lib

/-! ## A walk -/

structure ChildWalk where
  heap : Heap Process
  manager : ProcessManager
  iterator : ProcessManagerChildIterator
  /-- the processes returned, latest first -/
  returned : List ProcessPtr
  /-- has NULL been returned -/
  ended : Bool
  /-- the processes whose parent has been the iterator's from the start -/
  children : List ProcessPtr

def childWalkStart (heap : Heap Process) (manager : ProcessManager) (iterator : ProcessManagerChildIterator) : ChildWalk :=
  ⟨heap, manager, iterator, [], false, manager.processes.filter fun p => (heap.read p).parentId = iterator.parentId⟩

def WalkOp.execChild : WalkOp → ChildWalk → Option ChildWalk
  | .next, x =>
    match processManagerChildIteratorNext x.heap x.manager x.iterator with
    | (none, iterator) => some { x with iterator := iterator, ended := true }
    | (some p, iterator) => some { x with iterator := iterator, returned := p :: x.returned }
  | .destroy id, x => some { x with manager := (processManagerDestroyProcess x.heap x.manager id).2 }
  | .others heap, x =>
    some { x with
      heap := heap
      children := x.children.filter fun p => (heap.read p).parentId = x.iterator.parentId }

/-- Until NULL only processes that were returned are destroyed; ids do not change. -/
def WalkOp.AllowedChild (x : ChildWalk) (op : WalkOp) : Prop :=
  x.ended = false ∧
    match op with
    | .next => True
    | .destroy id => ∀ p ∈ x.manager.processes, (x.heap.read p).id = id → p ∈ x.returned
    | .others heap => x.heap.next ≤ heap.next ∧ ∀ p ∈ x.manager.processes, (heap.read p).id = (x.heap.read p).id

/-- Every child that has stayed one was returned once. -/
def ChildWalk.EachOnce (x : ChildWalk) : Prop := ∀ p ∈ x.manager.processes, p ∈ x.children → x.returned.count p = 1

/-- A process is destroyed only when the iterator has been through all slots, or when the last slot, the
one that is moved, holds no child. -/
def WalkOp.KeepsUp (x : ChildWalk) : WalkOp → Prop
  | .destroy id => (∃ p ∈ x.manager.processes, (x.heap.read p).id = id) →
      x.manager.processes.length ≤ x.iterator.index ∨
        ∀ p, x.manager.processes.getLast? = some p → (x.heap.read p).parentId ≠ x.iterator.parentId
  | _ => True

/-! ## One step -/

/-- What the loop stops at: the first child, or the end of the table. -/
theorem childIteratorLoop_cases (heap : Heap Process) (parentId : Nat) : ∀ (l : List ProcessPtr) (index : Nat),
    (childIteratorLoop heap parentId l index = (none, index + l.length) ∧ ∀ p ∈ l, (heap.read p).parentId ≠ parentId) ∨
      ∃ before p after, l = before ++ p :: after ∧ (heap.read p).parentId = parentId ∧
        (∀ q ∈ before, (heap.read q).parentId ≠ parentId) ∧
        childIteratorLoop heap parentId l index = (some p, index + before.length + 1)
  | [], index => .inl ⟨rfl, by simp⟩
  | process :: rest, index => by
    unfold childIteratorLoop
    by_cases hchild : (heap.read process).parentId = parentId
    · rw [if_pos hchild]
      exact .inr ⟨[], process, rest, rfl, hchild, by simp, rfl⟩
    · rw [if_neg hchild]
      rcases childIteratorLoop_cases heap parentId rest (index + 1) with ⟨hx, hno⟩ | ⟨before, p, after, rfl, hp, hno, hx⟩
      · refine .inl ⟨?_, List.forall_mem_cons.2 ⟨hchild, hno⟩⟩
        rw [hx, List.length_cons, Nat.add_assoc, Nat.add_comm 1]
      · refine .inr ⟨process :: before, p, after, rfl, hp, List.forall_mem_cons.2 ⟨hchild, hno⟩, ?_⟩
        rw [hx, List.length_cons, Nat.add_assoc index, Nat.add_comm 1]

/-- The same by slots. -/
theorem childIteratorNext_cases (heap : Heap Process) (manager : ProcessManager) (iterator : ProcessManagerChildIterator) :
    (∃ index, processManagerChildIteratorNext heap manager iterator = (none, { iterator with index := index }) ∧
        manager.processes.length ≤ index ∧
        ∀ (i : Nat) p, manager.processes[i]? = some p → iterator.index ≤ i → (heap.read p).parentId ≠ iterator.parentId) ∨
      ∃ j p, processManagerChildIteratorNext heap manager iterator = (some p, { iterator with index := j + 1 }) ∧
        iterator.index ≤ j ∧ manager.processes[j]? = some p ∧ (heap.read p).parentId = iterator.parentId ∧
        ∀ (i : Nat) q, manager.processes[i]? = some q → iterator.index ≤ i → i < j →
          (heap.read q).parentId ≠ iterator.parentId := by
  unfold processManagerChildIteratorNext
  have hslot : ∀ i, iterator.index ≤ i →
      (manager.processes.drop iterator.index)[i - iterator.index]? = manager.processes[i]? := by
    intro i hi
    rw [List.getElem?_drop, Nat.add_sub_cancel' hi]
  rcases childIteratorLoop_cases heap iterator.parentId (manager.processes.drop iterator.index) iterator.index with
    ⟨hx, hno⟩ | ⟨before, p, after, hsplit, hp, hno, hx⟩
  · rw [hx]
    refine .inl ⟨_, rfl, ?_, fun i p hi hle => hno p ?_⟩
    · rw [List.length_drop]
      omega
    · rw [← hslot i hle] at hi
      exact List.mem_of_getElem? hi
  · rw [hx]
    refine .inr ⟨iterator.index + before.length, p, rfl, Nat.le_add_right .., ?_, hp, fun i q hi hle hlt => hno q ?_⟩
    · rw [← hslot _ (Nat.le_add_right ..), Nat.add_sub_cancel_left, hsplit]
      simp
    · rw [← hslot i hle, hsplit, List.getElem?_append_left (by omega)] at hi
      exact List.mem_of_getElem? hi

/-- What holds in every walk. -/
structure ChildWalk.Inv (x : ChildWalk) : Prop where
  table : TableInv x.heap x.manager
  once : ∀ p ∈ x.manager.processes, x.returned.count p ≤ 1
  behind : ∀ (i : Nat) p, x.manager.processes[i]? = some p → p ∈ x.returned → i < x.iterator.index
  parent : ∀ p ∈ x.children, (x.heap.read p).parentId = x.iterator.parentId
  ended : x.ended = true → x.manager.processes.length ≤ x.iterator.index

/-- No child in a slot that the iterator has passed was left out. -/
def ChildWalk.Seen (x : ChildWalk) : Prop :=
  ∀ (i : Nat) p, x.manager.processes[i]? = some p → i < x.iterator.index → p ∈ x.children → p ∈ x.returned

section Steps

variable {x y : ChildWalk}

/-- The entries after a destruction, and where they were before. -/
theorem getElem?_destroyed {l : List ProcessPtr} {index i : Nat} {p : ProcessPtr} (hi : index < l.length)
    (hp : (swapRemove l index)[i]? = some p) : i + 1 < l.length ∧ (i ≠ index ∧ l[i]? = some p ∨ i = index ∧ l.getLast? = some p) := by
  rw [getElem?_swapRemove l hi] at hp
  split at hp
  · rename_i hlt
    refine ⟨hlt, ?_⟩
    split at hp
    · rename_i heq
      exact .inr ⟨heq, hp⟩
    · rename_i hne
      exact .inl ⟨hne, hp⟩
  · cases hp

theorem ChildWalk.Inv.destroyed (h : x.Inv) {index : Nat} {victim : ProcessPtr}
    (hslot : x.manager.processes[index]? = some victim) (hret : victim ∈ x.returned) :
    ChildWalk.Inv { x with
      manager := { x.manager with processes := swapRemove x.manager.processes index, iteratorIndex := 0 } } := by
  have hi := (List.getElem?_eq_some_iff.1 hslot).1
  refine ⟨h.table.swapRemove hi 0, fun q hq => h.once q (mem_of_mem_swapRemove hi hq), fun i p hp hin => ?_, h.parent,
    fun hend => ?_⟩
  · rcases (getElem?_destroyed hi hp).2 with ⟨-, hp⟩ | ⟨rfl, -⟩
    · exact h.behind i p hp hin
    · exact h.behind _ victim hslot hret
  · have hlen := length_swapRemove x.manager.processes hi
    have hle := h.ended hend
    show (swapRemove x.manager.processes index).length ≤ x.iterator.index
    omega

theorem WalkOp.child_inv {op : WalkOp} (h : x.Inv) (hok : op.AllowedChild x) (hx : op.execChild x = some y) : y.Inv := by
  cases op with
  | next =>
    simp only [WalkOp.execChild] at hx
    rcases childIteratorNext_cases x.heap x.manager x.iterator with ⟨index, hn, hend, hno⟩ | ⟨j, p, hn, hle, hj, hp, hno⟩
    · rw [hn] at hx
      cases hx
      refine ⟨h.table, h.once, fun i p hi _ => ?_, h.parent, fun _ => hend⟩
      exact Nat.lt_of_lt_of_le (List.getElem?_eq_some_iff.1 hi).1 hend
    · have hnew : p ∉ x.returned := fun hin => by
        have := h.behind j p hj hin
        omega
      rw [hn] at hx
      cases hx
      refine ⟨h.table, fun q hq => count_returned hnew (h.once q hq), fun i q hi hin => ?_, h.parent, fun hend => ?_⟩
      · show i < j + 1
        rcases List.mem_cons.1 hin with rfl | hin
        · have := h.table.slot_unique hi hj
          omega
        · have := h.behind i q hi hin
          omega
      · have hend : x.ended = true := hend
        rw [hok.1] at hend
        cases hend
  | destroy id =>
    cases hx
    rcases h.table.destroy_cases id with ⟨hd, -⟩ | ⟨index, p, hslot, hid, hd⟩ <;> rw [hd]
    · exact h
    · exact h.destroyed hslot (hok.2 p (List.mem_of_getElem? hslot) hid)
  | others heap =>
    cases hx
    refine ⟨h.table.of_ids hok.2.1 hok.2.2, h.once, h.behind, fun p hp => ?_, h.ended⟩
    simpa using (List.mem_filter.1 hp).2

/-- A step that keeps up leaves nobody behind. -/
theorem WalkOp.child_seen {op : WalkOp} (h : x.Inv) (hseen : x.Seen) (hok : op.AllowedChild x) (hkeeps : op.KeepsUp x)
    (hx : op.execChild x = some y) : y.Seen := by
  cases op with
  | next =>
    simp only [WalkOp.execChild] at hx
    rcases childIteratorNext_cases x.heap x.manager x.iterator with ⟨index, hn, hend, hno⟩ | ⟨j, p, hn, hle, hj, hp, hno⟩
    · rw [hn] at hx
      cases hx
      intro i p hi _ hchild
      rcases Nat.lt_or_ge i x.iterator.index with hlt | hge
      · exact hseen i p hi hlt hchild
      · exact absurd (h.parent p hchild) (hno i p hi hge)
    · rw [hn] at hx
      cases hx
      intro i q hi hlt hchild
      rcases Nat.lt_or_ge i x.iterator.index with hold | hge
      · exact List.mem_cons_of_mem _ (hseen i q hi hold hchild)
      · rcases Nat.lt_or_eq_of_le (Nat.le_of_lt_succ hlt) with hbefore | rfl
        · exact absurd (h.parent q hchild) (hno i q hi hge hbefore)
        · rw [Option.some.inj (hi.symm.trans hj)]
          exact List.mem_cons_self
  | destroy id =>
    cases hx
    rcases h.table.destroy_cases id with ⟨hd, -⟩ | ⟨index, victim, hslot, hid, hd⟩ <;> rw [hd]
    · exact hseen
    · have hi := (List.getElem?_eq_some_iff.1 hslot).1
      intro i p hp hlt hchild
      rcases getElem?_destroyed hi hp with ⟨hbound, ⟨-, hp⟩ | ⟨-, hlast⟩⟩
      · exact hseen i p hp hlt hchild
      · -- the entry that was moved was looked at in its old slot, or is no child
        rcases hkeeps ⟨victim, List.mem_of_getElem? hslot, hid⟩ with hall | hno
        · rw [List.getLast?_eq_getElem?] at hlast
          exact hseen _ p hlast (by omega) hchild
        · exact absurd (h.parent p hchild) (hno p hlast)
  | others heap =>
    cases hx
    exact fun i p hi hlt hchild => hseen i p hi hlt (List.mem_filter.1 hchild).1

theorem ChildWalk.Inv.eachOnce (h : x.Inv) (hseen : x.Seen) (hend : x.ended = true) : x.EachOnce := by
  intro p hp hchild
  obtain ⟨i, hslot⟩ := List.getElem?_of_mem hp
  have hi := (List.getElem?_eq_some_iff.1 hslot).1
  have hle := h.ended hend
  have hin := hseen i p hslot (by omega) hchild
  have hpos : 0 < x.returned.count p := List.count_pos_iff.2 hin
  have hone := h.once p hp
  omega

/-! ## A child that is passed over -/

/-- The process is in a slot that the iterator has passed, and was not returned. -/
def ChildWalk.Missed (x : ChildWalk) (p : ProcessPtr) : Prop :=
  p ∉ x.returned ∧ ∃ i : Nat, x.manager.processes[i]? = some p ∧ i < x.iterator.index

/-- Whatever happens then, it stays so. -/
theorem WalkOp.child_missed {op : WalkOp} {p : ProcessPtr} (h : x.Inv) (hmissed : x.Missed p) (hok : op.AllowedChild x)
    (hx : op.execChild x = some y) : y.Missed p := by
  obtain ⟨hnot, i, hi, hlt⟩ := hmissed
  cases op with
  | next =>
    simp only [WalkOp.execChild] at hx
    rcases childIteratorNext_cases x.heap x.manager x.iterator with ⟨index, hn, hend, -⟩ | ⟨j, q, hn, hle, hj, -, -⟩
    · rw [hn] at hx
      cases hx
      exact ⟨hnot, i, hi, Nat.lt_of_lt_of_le (List.getElem?_eq_some_iff.1 hi).1 hend⟩
    · rw [hn] at hx
      cases hx
      refine ⟨fun hin => ?_, i, hi, ?_⟩
      · rcases List.mem_cons.1 hin with rfl | hin
        · have := h.table.slot_unique hi hj
          omega
        · exact hnot hin
      · show i < j + 1
        omega
  | destroy id =>
    cases hx
    rcases h.table.destroy_cases id with ⟨hd, -⟩ | ⟨index, victim, hslot, hid, hd⟩ <;> rw [hd]
    · exact ⟨hnot, i, hi, hlt⟩
    · have hret := hok.2 victim (List.mem_of_getElem? hslot) hid
      have hindex := (List.getElem?_eq_some_iff.1 hslot).1
      have hbehind := h.behind index victim hslot hret
      have hne : i ≠ index := by
        rintro rfl
        exact hnot (Option.some.inj (hslot.symm.trans hi) ▸ hret)
      have hbound := (List.getElem?_eq_some_iff.1 hi).1
      refine ⟨hnot, ?_⟩
      -- it is where it was, or, being last, in the slot that was freed
      by_cases hlast : i + 1 < x.manager.processes.length
      · refine ⟨i, ?_, hlt⟩
        show (swapRemove x.manager.processes index)[i]? = some p
        rw [getElem?_swapRemove _ hindex, if_pos hlast, if_neg hne]
        exact hi
      · refine ⟨index, ?_, hbehind⟩
        show (swapRemove x.manager.processes index)[index]? = some p
        rw [getElem?_swapRemove _ hindex, if_pos (by omega), if_pos rfl, List.getLast?_eq_getElem?, ← hi]
        congr 1
        omega
  | others heap =>
    cases hx
    exact ⟨hnot, i, hi, hlt⟩

/-- A destruction that does not keep up passes over the child in the last slot. -/
theorem ChildWalk.Inv.destroy_missed (h : x.Inv) {id : Nat} (hok : (WalkOp.destroy id).AllowedChild x)
    (hbad : ¬ (WalkOp.destroy id).KeepsUp x) (hx : (WalkOp.destroy id).execChild x = some y) :
    ∃ p ∈ x.manager.processes, (x.heap.read p).parentId = x.iterator.parentId ∧ y.Missed p := by
  simp only [WalkOp.KeepsUp, Classical.not_imp, not_or, not_forall, not_not] at hbad
  obtain ⟨⟨q, hq, hid⟩, hahead, p, hlast, hchild⟩ := hbad
  cases hx
  rcases h.table.destroy_cases id with ⟨hd, hno⟩ | ⟨index, victim, hslot, hid', hd⟩
  · exact absurd hid (hno q hq)
  · have hbehind := h.behind index victim hslot (hok.2 victim (List.mem_of_getElem? hslot) hid')
    have hindex := (List.getElem?_eq_some_iff.1 hslot).1
    have hend := hlast
    rw [List.getLast?_eq_getElem?] at hend
    refine ⟨p, List.mem_of_getElem? hend, hchild, fun hin => ?_, index, ?_, hbehind⟩
    · have := h.behind _ p hend hin
      omega
    · rw [hd]
      show (swapRemove x.manager.processes index)[index]? = some p
      rw [getElem?_swapRemove _ hindex, if_pos (by omega), if_pos rfl]
      exact hlast

end Steps

/-! ## Every walk -/

/-- Walks with `process_manager_first` and `process_manager_next`, and among them those that are orderly. -/
abbrev WalkRuns (heap : Heap Process) (manager : ProcessManager) (x : Walk) : Prop :=
  Runs WalkOp.exec (fun x op => op.Allowed x) (walkFirst heap manager) x

abbrev OrderlyWalk (heap : Heap Process) (manager : ProcessManager) (x : Walk) : Prop :=
  Runs WalkOp.exec (fun x op => op.Allowed x ∧ op.Orderly x) (walkFirst heap manager) x

/-- Walks with a new child iterator, and among them those that keep up. -/
abbrev ChildWalkRuns (heap : Heap Process) (manager : ProcessManager) (iterator : ProcessManagerChildIterator)
    (x : ChildWalk) : Prop :=
  Runs WalkOp.execChild (fun x op => op.AllowedChild x) (childWalkStart heap manager iterator) x

abbrev KeptUpWalk (heap : Heap Process) (manager : ProcessManager) (iterator : ProcessManagerChildIterator)
    (x : ChildWalk) : Prop :=
  Runs WalkOp.execChild (fun x op => op.AllowedChild x ∧ op.KeepsUp x) (childWalkStart heap manager iterator) x

section Main

variable {heap : Heap Process} {manager : ProcessManager}

theorem OrderlyWalk.inv (h : TableInv heap manager) {x : Walk} (hrun : OrderlyWalk heap manager x) : x.Inv :=
  hrun.holds (fun _ _ _ hI hok hx => WalkOp.inv hI hok.1 hok.2 hx) (walkFirst_inv h)

theorem childWalkStart_inv (h : TableInv heap manager) {iterator : ProcessManagerChildIterator} (hnew : iterator.index = 0) :
    (childWalkStart heap manager iterator).Inv ∧ (childWalkStart heap manager iterator).Seen := by
  refine ⟨⟨h, by simp [childWalkStart], by simp [childWalkStart], fun p hp => ?_, by simp [childWalkStart]⟩,
    fun i p _ hlt => ?_⟩
  · show (heap.read p).parentId = iterator.parentId
    simpa using (List.mem_filter.1 hp).2
  · have hlt : i < iterator.index := hlt
    omega

theorem KeptUpWalk.inv (h : TableInv heap manager) {iterator : ProcessManagerChildIterator} (hnew : iterator.index = 0)
    {x : ChildWalk} (hrun : KeptUpWalk heap manager iterator x) : x.Inv ∧ x.Seen :=
  hrun.holds (I := fun x => x.Inv ∧ x.Seen)
    (fun _ _ _ hI hok hx => ⟨WalkOp.child_inv hI.1 hok.1 hx, WalkOp.child_seen hI.1 hI.2 hok.1 hok.2 hx⟩)
    (childWalkStart_inv h hnew)

theorem childIteratorCreate_new {parentId : Nat} {host : Host} {iterator : ProcessManagerChildIterator}
    (h : (processManagerChildIteratorCreate parentId host).1 = some iterator) : iterator.index = 0 := by
  unfold processManagerChildIteratorCreate at h
  split at h
  · cases h
  · simp only at h
    split at h <;> cases h
    rfl

/-- A process that was passed over stays tracked and is not returned any more. -/
theorem ChildWalk.Missed.stays {x z : ChildWalk} {p : ProcessPtr} (h : x.Inv) (hmissed : x.Missed p)
    (hrun : Runs WalkOp.execChild (fun x op => op.AllowedChild x) x z) : p ∈ z.manager.processes ∧ p ∉ z.returned := by
  have hend : z.Inv ∧ z.Missed p := hrun.holds (I := fun z : ChildWalk => z.Inv ∧ z.Missed p)
    (fun _ _ _ hI hok hx => ⟨WalkOp.child_inv hI.1 hok hx, WalkOp.child_missed hI.1 hI.2 hok hx⟩) ⟨h, hmissed⟩
  obtain ⟨-, hnot, i, hi, -⟩ := hend
  exact ⟨List.mem_of_getElem? hi, hnot⟩

/-- Orderly walks, and walks with a child iterator that keep up, return every process that stays once.
And the conditions cannot be dropped: where the first is not met after a destruction, the walk that then
runs to its end without another skips or repeats a process; where a destruction does not meet the second,
a child is never returned. -/
theorem walks_return_each_once (h : TableInv heap manager) :
    (∀ x, OrderlyWalk heap manager x →
      (x.ended = true → x.EachOnce) ∧
      (x.ended = false → x.disturbed = true → ∃ y, WalkRest x y ∧ y.ended = true ∧ (y.EachOnce ↔ x.OnlyFront))) ∧
    ∀ parentId (host : Host) iterator, (processManagerChildIteratorCreate parentId host).1 = some iterator →
      ∀ x, KeptUpWalk heap manager iterator x →
        (x.ended = true → x.EachOnce) ∧
        ∀ id y, (WalkOp.destroy id).AllowedChild x → ¬ (WalkOp.destroy id).KeepsUp x →
          (WalkOp.destroy id).execChild x = some y →
          ∃ p ∈ x.manager.processes, (x.heap.read p).parentId = x.iterator.parentId ∧
            ∀ z, Runs WalkOp.execChild (fun x op => op.AllowedChild x) y z →
              p ∈ z.manager.processes ∧ p ∉ z.returned := by
  refine ⟨fun x hrun => ?_, fun parentId host iterator hcreate x hrun => ?_⟩
  · have hinv := OrderlyWalk.inv h hrun
    refine ⟨hinv.eachOnce, fun hopen hdisturbed => ?_⟩
    obtain ⟨y, hy, hend, hiff⟩ := hinv.rest_iff hopen
    refine ⟨y, hy, hend, hiff.trans ?_⟩
    unfold Walk.InOrder Walk.OnlyFront
    rw [hinv.cursor hdisturbed]
    simp only [Nat.le_zero]
  · obtain ⟨hinv, hseen⟩ := KeptUpWalk.inv h (childIteratorCreate_new hcreate) hrun
    refine ⟨hinv.eachOnce hseen, fun id y hok hbad hx => ?_⟩
    obtain ⟨p, hp, hchild, hmissed⟩ := hinv.destroy_missed hok hbad hx
    exact ⟨p, hp, hchild, fun z hz => hmissed.stays (WalkOp.child_inv hinv hok hx) hz⟩

end Main

/-- Three processes with the root as their parent. -/
def siblingHeap : Heap Process :=
  ((((noProcesses.alloc (processCreate 1 0 1 "sh")).2.alloc (processCreate 2 0 1 "db")).2).alloc
    (processCreate 3 0 1 "web")).2

def siblings : ProcessManager := ⟨[0, 1, 2], 4, 0⟩

theorem siblings_inv : TableInv siblingHeap siblings :=
  ⟨⟨by decide, by decide, by decide, by decide, by decide⟩, by decide, by decide⟩

/-- The second is destroyed right after it was returned. -/
theorem walks_return_each_once_siblings :
    ∃ x, OrderlyWalk siblingHeap siblings x ∧ x.ended = true ∧ x.manager.processes = [0, 2] ∧ x.EachOnce := by
  have hfirst : OrderlyWalk siblingHeap siblings (walkFirst siblingHeap siblings) := .refl _
  have hsecond := hfirst.next .next ⟨⟨rfl, trivial⟩, fun hd => by cases hd⟩ rfl
  have hgone := hsecond.next (.destroy 2) ⟨⟨rfl, by decide⟩, trivial⟩ rfl
  have honly : ∀ (i : Nat) p, [0, 2][i]? = some p → (p ∈ [1, 0] ↔ i = 0) := by
    intro i p hi
    rcases i with _ | _ | i <;> simp at hi <;> subst hi <;> decide
  have hthird := hgone.next .next ⟨⟨rfl, trivial⟩, fun _ => honly⟩ rfl
  have hend := hthird.next .next ⟨⟨rfl, trivial⟩, fun hd => by cases hd⟩ rfl
  exact ⟨_, hend, rfl, rfl, ((walks_return_each_once siblings_inv).1 _ hend).1 rfl⟩

/-- Each walk is told to destroy the first process it returns, and misses the last of the table. -/
theorem walks_miss_siblings :
    (¬ ∀ heap manager x, TableInv heap manager → WalkRuns heap manager x → x.ended = true → x.EachOnce) ∧
      ¬ ∀ heap manager parentId (host : Host) iterator x, TableInv heap manager →
        (processManagerChildIteratorCreate parentId host).1 = some iterator →
        ChildWalkRuns heap manager iterator x → x.ended = true → x.EachOnce := by
  constructor
  · intro h
    have hfirst : WalkRuns siblingHeap siblings (walkFirst siblingHeap siblings) := .refl _
    have hgone := hfirst.next (.destroy 1) ⟨rfl, by decide⟩ rfl
    have hend := (hgone.next .next ⟨rfl, trivial⟩ rfl).next .next ⟨rfl, trivial⟩ rfl
    exact absurd (h _ _ _ siblings_inv hend rfl 2 (by decide)) (by decide)
  · intro h
    have hstart : ChildWalkRuns siblingHeap siblings ⟨0, 0⟩ (childWalkStart siblingHeap siblings ⟨0, 0⟩) := .refl _
    have hfirst := hstart.next .next ⟨rfl, trivial⟩ rfl
    have hgone := hfirst.next (.destroy 1) ⟨rfl, by decide⟩ rfl
    have hend := (hgone.next .next ⟨rfl, trivial⟩ rfl).next .next ⟨rfl, trivial⟩ rfl
    exact absurd (h _ _ 0 (.generous [] [] 0) _ _ siblings_inv rfl hend rfl 2 (by decide) (by decide)) (by decide)

end EmblaOs
