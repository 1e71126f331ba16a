/-
Process groups and their table (process_group.c, process_group_manager.c). A group holds the
addresses of its members in the first slots of a 16-slot array, an optional member cap and the
host's group id once its first member has been forked.
-/
import EmblaOs.Process.Manager

namespace EmblaOs

open Lib

def processGroupInitialCapacity : Nat := 16
def processGroupManagerInitialCapacity : Nat := 16

/-- A non-NULL `ProcessGroup *`. -/
abbrev GroupPtr := Nat

structure ProcessGroup where
  id : Nat
  hostId : Int
  processes : List ProcessPtr
  hasMaxMembers : Bool
  maxMembers : Nat
  deriving DecidableEq, Repr

/-- The record `process_group_create` fills in; `max_members` is not read before it is set. -/
def processGroupCreate (id : Nat) : ProcessGroup := ⟨id, emblaInvalidHostPgid, [], false, 0⟩

/-- The group with other members. -/
def ProcessGroup.withMembers (group : ProcessGroup) (members : List ProcessPtr) : ProcessGroup :=
  { group with processes := members }

def processGroupFindIndex (group : ProcessGroup) (process : ProcessPtr) : Option Nat :=
  group.processes.findIdx? fun p => p = process

def processGroupAdd (heap : Heap Process) (group : ProcessGroup) (process : ProcessPtr) : Int × ProcessGroup :=
  if group.processes.length ≥ processGroupInitialCapacity then (-1, group)
  else if (heap.read process).groupId ≠ group.id then (-1, group)
  else if (processGroupFindIndex group process).isSome then (-1, group)
  else (0, { group with processes := group.processes ++ [process] })

def processGroupRemove (group : ProcessGroup) (process : ProcessPtr) : Int × ProcessGroup :=
  match processGroupFindIndex group process with
  | none => (-1, group)
  | some index => (0, { group with processes := swapRemove group.processes index })

def processGroupSetHostId (group : ProcessGroup) (hostId : Int) : ProcessGroup := { group with hostId := hostId }

def processGroupSetMaxMembers (group : ProcessGroup) (maxMembers : Nat) : ProcessGroup :=
  { group with hasMaxMembers := true, maxMembers := maxMembers }

structure ProcessGroupManager where
  groups : List GroupPtr
  nextId : Nat
  deriving DecidableEq, Repr

def processGroupManagerCreate : ProcessGroupManager := ⟨[], 1⟩

def noGroups : Heap ProcessGroup := .empty (processGroupCreate 0)

def processGroupManagerAllocateId (manager : ProcessGroupManager) : Nat × ProcessGroupManager :=
  if manager.nextId = emblaInvalidPgid then (emblaInvalidPgid, manager)
  else (manager.nextId, { manager with nextId := manager.nextId + 1 })

/-- The group and its member array are two allocations. -/
def processGroupManagerCreateGroup (heap : Heap ProcessGroup) (manager : ProcessGroupManager) (host : Host) :
    Option GroupPtr × Heap ProcessGroup × ProcessGroupManager × Host :=
  if manager.groups.length ≥ processGroupManagerInitialCapacity then (none, heap, manager, host)
  else
    let (id, manager) := processGroupManagerAllocateId manager
    if id = emblaInvalidPgid then (none, heap, manager, host)
    else
      let (record, host) := host.malloc
      if record = false then (none, heap, manager, host)
      else
        let (members, host) := host.malloc
        if members = false then (none, heap, manager, host)
        else
          let (group, heap) := heap.alloc (processGroupCreate id)
          (some group, heap, { manager with groups := manager.groups ++ [group] }, host)

def processGroupManagerFindIndex (heap : Heap ProcessGroup) (manager : ProcessGroupManager) (id : Nat) :
    Option Nat :=
  manager.groups.findIdx? fun group => (heap.read group).id = id

def processGroupManagerGet (heap : Heap ProcessGroup) (manager : ProcessGroupManager) (id : Nat) :
    Option GroupPtr :=
  if id = emblaInvalidPgid then none
  else
    match processGroupManagerFindIndex heap manager id with
    | none => none
    | some index => manager.groups[index]?

def processGroupManagerDestroyGroup (heap : Heap ProcessGroup) (manager : ProcessGroupManager) (id : Nat) :
    Int × ProcessGroupManager :=
  if id = emblaInvalidPgid then (-1, manager)
  else
    match processGroupManagerFindIndex heap manager id with
    | none => (-1, manager)
    | some index =>
      match manager.groups[index]? with
      | none => (-1, manager)
      | some group =>
        if (heap.read group).processes.length ≠ 0 then (-1, manager)
        else (0, { manager with groups := swapRemove manager.groups index })

/-! ## Members of one group -/

theorem processGroupFindIndex_absent {group : ProcessGroup} {process : ProcessPtr}
    (h : process ∉ group.processes) : processGroupFindIndex group process = none := by
  unfold processGroupFindIndex
  rw [List.findIdx?_eq_none_iff]
  intro q hq
  simp only [decide_eq_false_iff_not]
  rintro rfl
  exact h hq

theorem processGroupAdd_ok {heap : Heap Process} {group : ProcessGroup} {process : ProcessPtr}
    (hsize : group.processes.length < processGroupInitialCapacity)
    (hid : (heap.read process).groupId = group.id) (hnew : process ∉ group.processes) :
    processGroupAdd heap group process = (0, group.withMembers (group.processes ++ [process])) := by
  unfold processGroupAdd
  rw [if_neg (by omega), if_neg (by simpa using hid), processGroupFindIndex_absent hnew]
  rfl

theorem processGroupAdd_full {heap : Heap Process} {group : ProcessGroup} {process : ProcessPtr}
    (hsize : processGroupInitialCapacity ≤ group.processes.length) :
    processGroupAdd heap group process = (-1, group) := by
  unfold processGroupAdd
  rw [if_pos hsize]

theorem processGroupRemove_absent {group : ProcessGroup} {process : ProcessPtr}
    (h : process ∉ group.processes) : processGroupRemove group process = (-1, group) := by
  unfold processGroupRemove
  rw [processGroupFindIndex_absent h]

theorem processGroupFindIndex_mem {group : ProcessGroup} {process : ProcessPtr}
    (h : process ∈ group.processes) :
    ∃ index, ∃ hi : index < group.processes.length,
      processGroupFindIndex group process = some index ∧ group.processes[index] = process := by
  unfold processGroupFindIndex
  rcases hf : group.processes.findIdx? (fun p => decide (p = process)) with _ | index
  · rw [List.findIdx?_eq_none_iff] at hf
    have := hf process h
    simp at this
  · obtain ⟨hi, hq, -⟩ := List.findIdx?_eq_some_iff_getElem.1 hf
    exact ⟨index, hi, rfl, by simpa using hq⟩

/-- Removing a member takes exactly that member out. -/
theorem processGroupRemove_mem {group : ProcessGroup} {process : ProcessPtr}
    (h : process ∈ group.processes) (hn : group.processes.Nodup) :
    ∃ members, processGroupRemove group process = (0, group.withMembers members) ∧
      members.Nodup ∧ (∀ q, q ∈ members ↔ q ∈ group.processes ∧ q ≠ process) ∧
      members.length + 1 = group.processes.length := by
  obtain ⟨index, hi, hf, hget⟩ := processGroupFindIndex_mem h
  unfold processGroupRemove
  rw [hf]
  refine ⟨_, rfl, nodup_swapRemove hi hn, fun q => ?_, length_swapRemove _ hi⟩
  rw [mem_swapRemove hi hn, hget]

/-- Taking out the member added last restores the member list. -/
theorem processGroupRemove_last (group : ProcessGroup) {members : List ProcessPtr} {process : ProcessPtr}
    (h : process ∉ members) :
    processGroupRemove (group.withMembers (members ++ [process])) process = (0, group.withMembers members) := by
  have hf : processGroupFindIndex (group.withMembers (members ++ [process])) process = some members.length := by
    unfold processGroupFindIndex ProcessGroup.withMembers
    simp only
    rw [List.findIdx?_append, List.findIdx?_eq_none_iff.2]
    · simp
    · intro q hq
      simp only [decide_eq_false_iff_not]
      rintro rfl
      exact h hq
  unfold processGroupRemove
  rw [hf]
  simp [swapRemove_last, ProcessGroup.withMembers]

/-! ## Creation of a group -/

def ProcessGroupManager.Room (manager : ProcessGroupManager) (host : Host) : Prop :=
  manager.groups.length < processGroupManagerInitialCapacity ∧ manager.nextId ≠ uint32Max ∧
    host.allocs.get 0 = true ∧ host.allocs.get 1 = true

theorem createGroup_ok {manager : ProcessGroupManager} {host : Host} (h : manager.Room host)
    (heap : Heap ProcessGroup) :
    processGroupManagerCreateGroup heap manager host =
      (some heap.next, (heap.alloc (processGroupCreate manager.nextId)).2,
        { manager with groups := manager.groups ++ [heap.next], nextId := manager.nextId + 1 },
        { host with allocs := host.allocs.tail.tail }) := by
  obtain ⟨h1, h2, h3, h4⟩ := h
  unfold processGroupManagerCreateGroup processGroupManagerAllocateId
  have h4' : host.allocs.tail.head = true := h4
  rw [if_neg (by omega)]
  simp [emblaInvalidPgid, h2, Host.malloc, h3, h4']

theorem createGroup_none {manager : ProcessGroupManager} {host : Host} (h : ¬ manager.Room host)
    (heap : Heap ProcessGroup) :
    ∃ nextId allocs, processGroupManagerCreateGroup heap manager host =
        (none, heap, { manager with nextId := nextId }, { host with allocs := allocs }) ∧
      manager.nextId ≤ nextId ∧ (manager.nextId ≤ uint32Max → nextId ≤ uint32Max) := by
  unfold processGroupManagerCreateGroup processGroupManagerAllocateId
  by_cases h1 : manager.groups.length ≥ processGroupManagerInitialCapacity
  · rw [if_pos h1]
    exact ⟨_, _, rfl, le_refl _, id⟩
  rw [if_neg h1]
  by_cases h2 : manager.nextId = emblaInvalidPgid
  · rw [if_pos h2]
    exact ⟨_, host.allocs, rfl, le_refl _, id⟩
  rw [if_neg h2]
  simp only [h2, if_false, Host.malloc]
  have hmax : manager.nextId ≤ uint32Max → manager.nextId + 1 ≤ uint32Max := by
    unfold emblaInvalidPgid at h2
    omega
  by_cases h3 : host.allocs.head = false
  · simp only [h3, if_true]
    exact ⟨_, _, rfl, by simp, hmax⟩
  by_cases h4 : host.allocs.tail.head = false
  · simp only [h3, h4, if_true]
    exact ⟨_, _, rfl, by simp, hmax⟩
  exact absurd ⟨by omega, h2, by simpa using h3, by simpa using h4⟩ h

/-! ## The table of groups -/

structure GroupTableInv (heap : Heap ProcessGroup) (manager : ProcessGroupManager) : Prop where
  keyed : Keyed heap ProcessGroup.id manager.groups manager.nextId processGroupManagerInitialCapacity
  nextLo : 1 ≤ manager.nextId
  nextHi : manager.nextId ≤ uint32Max

theorem groupTableInv_create (heap : Heap ProcessGroup) : GroupTableInv heap processGroupManagerCreate :=
  ⟨Keyed.empty .., by decide, by decide⟩

theorem GroupTableInv.of_ids {heap heap' : Heap ProcessGroup} {manager : ProcessGroupManager}
    (h : GroupTableInv heap manager) (hn : heap.next ≤ heap'.next)
    (hid : ∀ g ∈ manager.groups, (heap'.read g).id = (heap.read g).id) : GroupTableInv heap' manager :=
  ⟨h.keyed.of_keys hn hid, h.nextLo, h.nextHi⟩

theorem GroupTableInv.skip {heap : Heap ProcessGroup} {manager : ProcessGroupManager} (h : GroupTableInv heap manager)
    {nextId : Nat} (hlo : manager.nextId ≤ nextId) (hhi : nextId ≤ uint32Max) :
    GroupTableInv heap ⟨manager.groups, nextId⟩ :=
  ⟨h.keyed.skip hlo, le_trans h.nextLo hlo, hhi⟩

theorem GroupTableInv.append {heap : Heap ProcessGroup} {manager : ProcessGroupManager}
    (h : GroupTableInv heap manager) (hsize : manager.groups.length < processGroupManagerInitialCapacity)
    (hmax : manager.nextId ≠ uint32Max) :
    GroupTableInv (heap.alloc (processGroupCreate manager.nextId)).2
      { manager with groups := manager.groups ++ [heap.next], nextId := manager.nextId + 1 } := by
  have hhi := h.nextHi
  refine ⟨h.keyed.append rfl h.nextLo hsize, Nat.le_add_left .., ?_⟩
  simp only
  omega

theorem GroupTableInv.id_valid {heap : Heap ProcessGroup} {manager : ProcessGroupManager}
    (h : GroupTableInv heap manager) {g : GroupPtr} (hg : g ∈ manager.groups) :
    (heap.read g).id ≠ emblaInvalidPgid := by
  have h1 := (h.keyed.keyLt g hg).2
  have h2 := h.nextHi
  unfold emblaInvalidPgid
  omega

theorem GroupTableInv.get {heap : Heap ProcessGroup} {manager : ProcessGroupManager}
    (h : GroupTableInv heap manager) {g : GroupPtr} (hg : g ∈ manager.groups) :
    processGroupManagerGet heap manager (heap.read g).id = some g := by
  obtain ⟨index, hi, hf, hget⟩ := h.keyed.findIdx hg
  unfold processGroupManagerGet processGroupManagerFindIndex
  rw [if_neg (h.id_valid hg), hf]
  simp [hi, hget]

/-- Destroying an empty tracked group removes exactly that group. -/
theorem GroupTableInv.destroy {heap : Heap ProcessGroup} {manager : ProcessGroupManager}
    (h : GroupTableInv heap manager) {g : GroupPtr} (hg : g ∈ manager.groups)
    (hempty : (heap.read g).processes = []) :
    ∃ manager', processGroupManagerDestroyGroup heap manager (heap.read g).id = (0, manager') ∧
      GroupTableInv heap manager' ∧ (∀ g', g' ∈ manager'.groups ↔ g' ∈ manager.groups ∧ g' ≠ g) ∧
      manager'.groups.length + 1 = manager.groups.length ∧ manager'.nextId = manager.nextId := by
  obtain ⟨index, hi, hf, hget⟩ := h.keyed.findIdx hg
  unfold processGroupManagerDestroyGroup processGroupManagerFindIndex
  rw [if_neg (h.id_valid hg), hf]
  simp only [List.getElem?_eq_getElem hi, hget, hempty, List.length_nil, ne_eq, not_true_eq_false, if_false]
  refine ⟨_, rfl, ⟨h.keyed.swapRemove hi, h.nextLo, h.nextHi⟩, fun g' => ?_, length_swapRemove _ hi, rfl⟩
  rw [mem_swapRemove hi h.keyed.nodup, hget]

/-- Destroying the empty group created last restores the table. -/
theorem GroupTableInv.destroy_last {heap : Heap ProcessGroup} {manager : ProcessGroupManager}
    (h : GroupTableInv heap manager) {groups : List GroupPtr} {g : GroupPtr}
    (hg : manager.groups = groups ++ [g]) (hempty : (heap.read g).processes = []) :
    processGroupManagerDestroyGroup heap manager (heap.read g).id = (0, { manager with groups := groups }) := by
  have hmem : g ∈ manager.groups := by simp [hg]
  have hget : manager.groups[groups.length]? = some g := by simp [hg]
  unfold processGroupManagerDestroyGroup processGroupManagerFindIndex
  rw [if_neg (h.id_valid hmem), h.keyed.findIdx_last hg]
  simp only [hget, hempty, List.length_nil, ne_eq, not_true_eq_false, if_false]
  rw [hg, swapRemove_last]

end EmblaOs
