/-
The process table (process_manager.c): the tracked processes in the first slots of a 16-slot
array, ids handed out from a counter that never wraps, deletion by moving the last entry into the
hole.
-/
import EmblaOs.Host
import EmblaOs.Lib.Table
import EmblaOs.Lib.FiniteMap

namespace EmblaOs

open Lib

def processManagerInitialCapacity : Nat := 16

/-- `processes` lists the used slots; the count is its length. -/
structure ProcessManager where
  processes : List ProcessPtr
  nextPid : Nat
  iteratorIndex : Nat
  deriving DecidableEq, Repr

def processManagerCreate : ProcessManager := ⟨[], 1, 0⟩

def processManagerAllocatePid (manager : ProcessManager) : Nat × ProcessManager :=
  if manager.nextPid = uint32Max then (emblaInvalidPid, manager)
  else (manager.nextPid, { manager with nextPid := manager.nextPid + 1 })

/-- The heap, the table and the host after the call, and the new process or NULL. The record and
the copy of the name are two allocations. -/
def processManagerCreateProcess (parentId groupId : Nat) (name : String)
    (heap : Heap Process) (manager : ProcessManager) (host : Host) :
    Option ProcessPtr × Heap Process × ProcessManager × Host :=
  if manager.processes.length ≥ processManagerInitialCapacity then (none, heap, manager, host)
  else
    let (id, manager) := processManagerAllocatePid manager
    if id = emblaInvalidPid then (none, heap, manager, host)
    else
      let (record, host) := host.malloc
      if record = false then (none, heap, manager, host)
      else
        let (copy, host) := host.malloc
        if copy = false then (none, heap, manager, host)
        else
          let (process, heap) := heap.alloc (processCreate id parentId groupId name)
          (some process, heap, { manager with processes := manager.processes ++ [process] }, host)

def processManagerFindIndex (heap : Heap Process) (manager : ProcessManager) (id : Nat) : Option Nat :=
  manager.processes.findIdx? fun process => (heap.read process).id = id

def processManagerGet (heap : Heap Process) (manager : ProcessManager) (id : Nat) : Option ProcessPtr :=
  match processManagerFindIndex heap manager id with
  | none => none
  | some index => manager.processes[index]?

def processManagerGetByHostId (heap : Heap Process) (manager : ProcessManager) (hostId : Int) :
    Option ProcessPtr :=
  if hostId = emblaInvalidHostPid then none
  else manager.processes.find? fun process => (heap.read process).hostId = hostId

def processManagerLiveCount (heap : Heap Process) (manager : ProcessManager) : Nat :=
  manager.processes.countP fun process => (heap.read process).state ≠ .terminated

def processManagerDestroyProcess (heap : Heap Process) (manager : ProcessManager) (id : Nat) :
    Int × ProcessManager :=
  if id = emblaInvalidPid then (-1, manager)
  else
    match processManagerFindIndex heap manager id with
    | none => (-1, manager)
    | some index => (0, { manager with processes := swapRemove manager.processes index, iteratorIndex := 0 })

def processManagerWaitChild (heap : Heap Process) (manager : ProcessManager) (parentId : Nat) :
    Option ProcessPtr :=
  if parentId = emblaInvalidPid then none
  else
    manager.processes.find? fun process =>
      (heap.read process).parentId = parentId && (heap.read process).state = .terminated

def processManagerFirst (manager : ProcessManager) : Option ProcessPtr × ProcessManager :=
  if manager.processes.length = 0 then (none, manager)
  else
    let manager := { manager with iteratorIndex := 0 }
    (manager.processes[manager.iteratorIndex]?, manager)

def processManagerNext (manager : ProcessManager) : Option ProcessPtr × ProcessManager :=
  if manager.iteratorIndex + 1 ≥ manager.processes.length then (none, manager)
  else
    let manager := { manager with iteratorIndex := manager.iteratorIndex + 1 }
    (manager.processes[manager.iteratorIndex]?, manager)

/-- The return value, what is written through `child_id` and the table after the call. -/
def processManagerReapChild (heap : Heap Process) (manager : ProcessManager) (parentId : Nat) :
    Int × Option Nat × ProcessManager :=
  if parentId = emblaInvalidPid then (-1, none, manager)
  else
    match processManagerWaitChild heap manager parentId with
    | none => (-1, none, manager)
    | some process =>
      let id := (heap.read process).id
      let (result, manager) := processManagerDestroyProcess heap manager id
      (result, some id, manager)

/-- The manager it iterates over is an argument of its functions. -/
structure ProcessManagerChildIterator where
  parentId : Nat
  index : Nat
  deriving DecidableEq, Repr

def processManagerChildIteratorCreate (parentId : Nat) (host : Host) : Option ProcessManagerChildIterator × Host :=
  if parentId = emblaInvalidPid then (none, host)
  else
    let (iterator, host) := host.malloc
    if iterator = false then (none, host) else (some ⟨parentId, 0⟩, host)

/-- The loop of `process_manager_child_iterator_next` over the slots from `index` on: the child it
stops at, and the index after it. -/
def childIteratorLoop (heap : Heap Process) (parentId : Nat) : List ProcessPtr → Nat → Option ProcessPtr × Nat
  | [], index => (none, index)
  | process :: rest, index =>
    if (heap.read process).parentId = parentId then (some process, index + 1)
    else childIteratorLoop heap parentId rest (index + 1)

def processManagerChildIteratorNext (heap : Heap Process) (manager : ProcessManager)
    (iterator : ProcessManagerChildIterator) : Option ProcessPtr × ProcessManagerChildIterator :=
  let (process, index) := childIteratorLoop heap iterator.parentId (manager.processes.drop iterator.index) iterator.index
  (process, { iterator with index := index })

/-- The loop of `process_manager_reparent_children` over the slots still ahead of the child
iterator. -/
def reparentLoop (parentId newParentId : Nat) : List ProcessPtr → Heap Process → Heap Process
  | [], heap => heap
  | process :: rest, heap =>
    if (heap.read process).parentId = parentId then
      reparentLoop parentId newParentId rest (heap.modify process fun p => { p with parentId := newParentId })
    else reparentLoop parentId newParentId rest heap

/-- Fails only when the iterator cannot be allocated. -/
def processManagerReparentChildren (heap : Heap Process) (manager : ProcessManager) (host : Host)
    (parentId newParentId : Nat) : Int × Heap Process × Host :=
  if parentId = emblaInvalidPid then (-1, heap, host)
  else
    let (iterator, host) := host.malloc
    if iterator = false then (-1, heap, host)
    else (0, reparentLoop parentId newParentId manager.processes heap, host)

/-! ## Creation -/

/-- What a creation needs: a free slot, an id, and two allocations that succeed. -/
def ProcessManager.Room (manager : ProcessManager) (host : Host) : Prop :=
  manager.processes.length < processManagerInitialCapacity ∧ manager.nextPid ≠ uint32Max ∧
    host.allocs.get 0 = true ∧ host.allocs.get 1 = true

theorem createProcess_ok {manager : ProcessManager} {host : Host} (h : manager.Room host)
    (parentId groupId : Nat) (name : String) (heap : Heap Process) :
    processManagerCreateProcess parentId groupId name heap manager host =
      (some heap.next, (heap.alloc (processCreate manager.nextPid parentId groupId name)).2,
        { manager with processes := manager.processes ++ [heap.next], nextPid := manager.nextPid + 1 },
        { host with allocs := host.allocs.tail.tail }) := by
  obtain ⟨h1, h2, h3, h4⟩ := h
  unfold processManagerCreateProcess processManagerAllocatePid
  rw [if_neg (by omega), if_neg h2]
  have h4' : host.allocs.tail.head = true := h4
  simp [emblaInvalidPid, h2, Host.malloc, h3, h4']

/-- A failed creation leaves the table and the heap; an id may be used up. -/
theorem createProcess_none {manager : ProcessManager} {host : Host} (h : ¬ manager.Room host)
    (parentId groupId : Nat) (name : String) (heap : Heap Process) :
    ∃ nextPid allocs, processManagerCreateProcess parentId groupId name heap manager host =
        (none, heap, { manager with nextPid := nextPid }, { host with allocs := allocs }) ∧
      manager.nextPid ≤ nextPid ∧ (manager.nextPid ≤ uint32Max → nextPid ≤ uint32Max) := by
  unfold processManagerCreateProcess processManagerAllocatePid
  by_cases h1 : manager.processes.length ≥ processManagerInitialCapacity
  · rw [if_pos h1]
    exact ⟨_, _, rfl, le_refl _, id⟩
  rw [if_neg h1]
  by_cases h2 : manager.nextPid = uint32Max
  · rw [if_pos h2]
    exact ⟨_, host.allocs, rfl, le_refl _, id⟩
  rw [if_neg h2]
  simp only [emblaInvalidPid, h2, if_false, Host.malloc]
  have hmax : manager.nextPid ≤ uint32Max → manager.nextPid + 1 ≤ uint32Max := by omega
  by_cases h3 : host.allocs.head = false
  · simp only [h3, if_true]
    exact ⟨_, _, rfl, by simp, hmax⟩
  by_cases h4 : host.allocs.tail.head = false
  · simp only [h3, h4, if_true]
    exact ⟨_, _, rfl, by simp, hmax⟩
  exact absurd ⟨by omega, h2, by simpa using h3, by simpa using h4⟩ h

/-! ## Lookups in a table whose ids are distinct -/

/-- The table is keyed by process id; the counter starts above the root's id and stays within
`uint32_t`. -/
structure TableInv (heap : Heap Process) (manager : ProcessManager) : Prop where
  keyed : Keyed heap Process.id manager.processes manager.nextPid processManagerInitialCapacity
  nextLo : 1 ≤ manager.nextPid
  nextHi : manager.nextPid ≤ uint32Max

theorem tableInv_create (heap : Heap Process) : TableInv heap processManagerCreate :=
  ⟨Keyed.empty .., by decide, by decide⟩

/-- Only addresses and ids matter to the table. -/
theorem TableInv.of_ids {heap heap' : Heap Process} {manager : ProcessManager} (h : TableInv heap manager)
    (hn : heap.next ≤ heap'.next) (hid : ∀ p ∈ manager.processes, (heap'.read p).id = (heap.read p).id) :
    TableInv heap' manager :=
  ⟨h.keyed.of_keys hn hid, h.nextLo, h.nextHi⟩

/-- A counter may skip ids. -/
theorem TableInv.skip {heap : Heap Process} {manager : ProcessManager} (h : TableInv heap manager) {nextPid : Nat}
    (hlo : manager.nextPid ≤ nextPid) (hhi : nextPid ≤ uint32Max) (iteratorIndex : Nat) :
    TableInv heap ⟨manager.processes, nextPid, iteratorIndex⟩ :=
  ⟨h.keyed.skip hlo, le_trans h.nextLo hlo, hhi⟩

/-- The table with the process that `process_manager_create_process` makes. -/
theorem TableInv.append {heap : Heap Process} {manager : ProcessManager} (h : TableInv heap manager)
    (hsize : manager.processes.length < processManagerInitialCapacity) (hmax : manager.nextPid ≠ uint32Max)
    (parentId groupId : Nat) (name : String) :
    TableInv (heap.alloc (processCreate manager.nextPid parentId groupId name)).2
      { manager with processes := manager.processes ++ [heap.next], nextPid := manager.nextPid + 1 } := by
  have hhi := h.nextHi
  refine ⟨h.keyed.append rfl h.nextLo hsize, Nat.le_add_left .., ?_⟩
  simp only
  omega

theorem TableInv.id_valid {heap : Heap Process} {manager : ProcessManager} (h : TableInv heap manager)
    {p : ProcessPtr} (hp : p ∈ manager.processes) : (heap.read p).id ≠ emblaInvalidPid := by
  have h1 := (h.keyed.keyLt p hp).2
  have h2 := h.nextHi
  unfold emblaInvalidPid
  omega

theorem TableInv.findIndex {heap : Heap Process} {manager : ProcessManager} (h : TableInv heap manager)
    {p : ProcessPtr} (hp : p ∈ manager.processes) :
    ∃ index, ∃ hi : index < manager.processes.length,
      processManagerFindIndex heap manager (heap.read p).id = some index ∧ manager.processes[index] = p :=
  h.keyed.findIdx hp

theorem processManagerGet_eq (heap : Heap Process) (manager : ProcessManager) :
    processManagerGet heap manager = lookup (fun p => (heap.read p).id) manager.processes := by
  funext id
  rw [lookup_eq_findIdx]
  unfold processManagerGet processManagerFindIndex
  cases manager.processes.findIdx? fun process => decide ((heap.read process).id = id) <;> rfl

theorem TableInv.get_iff {heap : Heap Process} {manager : ProcessManager} (h : TableInv heap manager)
    {id : Nat} {p : ProcessPtr} :
    processManagerGet heap manager id = some p ↔ p ∈ manager.processes ∧ (heap.read p).id = id := by
  rw [processManagerGet_eq]
  exact lookup_eq_some h.keyed.keys

theorem TableInv.get {heap : Heap Process} {manager : ProcessManager} (h : TableInv heap manager)
    {p : ProcessPtr} (hp : p ∈ manager.processes) : processManagerGet heap manager (heap.read p).id = some p :=
  h.get_iff.2 ⟨hp, rfl⟩

theorem destroyProcess_untracked {heap : Heap Process} {manager : ProcessManager} {id : Nat}
    (hno : ∀ p ∈ manager.processes, (heap.read p).id ≠ id) :
    processManagerDestroyProcess heap manager id = (-1, manager) := by
  unfold processManagerDestroyProcess processManagerFindIndex
  split
  · rfl
  · rw [List.findIdx?_eq_none_iff.2 (by simpa using hno)]

/-- A destruction frees one slot, which the last entry fills, and sets the cursor back. -/
theorem TableInv.destroy_slot {heap : Heap Process} {manager : ProcessManager} (h : TableInv heap manager)
    {p : ProcessPtr} (hp : p ∈ manager.processes) :
    ∃ index, manager.processes[index]? = some p ∧ processManagerDestroyProcess heap manager (heap.read p).id =
      (0, { manager with processes := Lib.swapRemove manager.processes index, iteratorIndex := 0 }) := by
  obtain ⟨index, hi, hf, hget⟩ := h.findIndex hp
  refine ⟨index, List.getElem?_eq_some_iff.2 ⟨hi, hget⟩, ?_⟩
  unfold processManagerDestroyProcess
  rw [if_neg (h.id_valid hp), hf]

theorem TableInv.swapRemove {heap : Heap Process} {manager : ProcessManager} (h : TableInv heap manager)
    {index : Nat} (hi : index < manager.processes.length)
    (iteratorIndex : Nat) :
    TableInv heap { manager with processes := Lib.swapRemove manager.processes index, iteratorIndex := iteratorIndex } :=
  ⟨h.keyed.swapRemove hi, h.nextLo, h.nextHi⟩

/-- A destruction either misses or hits a process. -/
theorem TableInv.destroy_cases {heap : Heap Process} {manager : ProcessManager} (h : TableInv heap manager)
    (id : Nat) :
    (processManagerDestroyProcess heap manager id = (-1, manager) ∧ ∀ p ∈ manager.processes, (heap.read p).id ≠ id) ∨
      ∃ index p, manager.processes[index]? = some p ∧ (heap.read p).id = id ∧ processManagerDestroyProcess heap manager id =
        (0, { manager with processes := Lib.swapRemove manager.processes index, iteratorIndex := 0 }) := by
  by_cases htracked : ∃ p ∈ manager.processes, (heap.read p).id = id
  · obtain ⟨p, hp, rfl⟩ := htracked
    obtain ⟨index, hslot, hx⟩ := h.destroy_slot hp
    exact .inr ⟨index, p, hslot, rfl, hx⟩
  · have hno : ∀ p ∈ manager.processes, (heap.read p).id ≠ id := fun p hp hid => htracked ⟨p, hp, hid⟩
    exact .inl ⟨destroyProcess_untracked hno, hno⟩

/-- Destroying a tracked process removes exactly that process. -/
theorem TableInv.destroy {heap : Heap Process} {manager : ProcessManager} (h : TableInv heap manager)
    {p : ProcessPtr} (hp : p ∈ manager.processes) :
    ∃ manager', processManagerDestroyProcess heap manager (heap.read p).id = (0, manager') ∧
      TableInv heap manager' ∧ (∀ q, q ∈ manager'.processes ↔ q ∈ manager.processes ∧ q ≠ p) ∧
      manager'.processes.length + 1 = manager.processes.length ∧ manager'.nextPid = manager.nextPid := by
  obtain ⟨index, hslot, hx⟩ := h.destroy_slot hp
  obtain ⟨hi, hget⟩ := List.getElem?_eq_some_iff.1 hslot
  refine ⟨_, hx, h.swapRemove hi 0, fun q => ?_, length_swapRemove _ hi, rfl⟩
  rw [mem_swapRemove hi h.keyed.nodup, hget]

/-- Destroying the process created last restores the table. -/
theorem TableInv.destroy_last {heap : Heap Process} {manager : ProcessManager} (h : TableInv heap manager)
    {processes : List ProcessPtr} {p : ProcessPtr} (hp : manager.processes = processes ++ [p]) :
    processManagerDestroyProcess heap manager (heap.read p).id =
      (0, { manager with processes := processes, iteratorIndex := 0 }) := by
  unfold processManagerDestroyProcess processManagerFindIndex
  rw [if_neg (h.id_valid (by simp [hp])), h.keyed.findIdx_last hp]
  simp only [hp, swapRemove_last]

/-- A lookup by host pid finds a tracked process with that pid. -/
theorem getByHostId_some {heap : Heap Process} {manager : ProcessManager} {hostId : Int}
    {p : ProcessPtr} (h : processManagerGetByHostId heap manager hostId = some p) :
    p ∈ manager.processes ∧ (heap.read p).hostId = hostId ∧ hostId ≠ emblaInvalidHostPid := by
  unfold processManagerGetByHostId at h
  split at h
  · cases h
  · rename_i hne
    exact ⟨List.mem_of_find?_eq_some h, by simpa using List.find?_some h, hne⟩

theorem getByHostId_none {heap : Heap Process} {manager : ProcessManager} {hostId : Int}
    (hne : hostId ≠ emblaInvalidHostPid) :
    processManagerGetByHostId heap manager hostId = none ↔ ∀ p ∈ manager.processes, (heap.read p).hostId ≠ hostId := by
  unfold processManagerGetByHostId
  rw [if_neg hne, List.find?_eq_none]
  simp

theorem waitChild_some {heap : Heap Process} {manager : ProcessManager} {parentId : Nat}
    {p : ProcessPtr} (h : processManagerWaitChild heap manager parentId = some p) :
    p ∈ manager.processes ∧ (heap.read p).parentId = parentId ∧ (heap.read p).state = .terminated := by
  unfold processManagerWaitChild at h
  split at h
  · cases h
  · have hp := List.find?_some h
    simp only [Bool.and_eq_true, decide_eq_true_eq] at hp
    exact ⟨List.mem_of_find?_eq_some h, hp.1, hp.2⟩

theorem waitChild_none {heap : Heap Process} {manager : ProcessManager} {parentId : Nat}
    (hne : parentId ≠ emblaInvalidPid) :
    processManagerWaitChild heap manager parentId = none ↔
      ∀ p ∈ manager.processes, (heap.read p).parentId = parentId → (heap.read p).state ≠ .terminated := by
  unfold processManagerWaitChild
  rw [if_neg hne, List.find?_eq_none]
  simp

/-! ## Reparenting -/

/-- One pass over the table rewrites the parent of each child it meets; every other field and
every other record stays. -/
theorem reparentLoop_read (parentId newParentId : Nat) :
    ∀ (processes : List ProcessPtr) (heap : Heap Process) (p : ProcessPtr),
      (reparentLoop parentId newParentId processes heap).read p =
        if p ∈ processes ∧ (heap.read p).parentId = parentId then
          { heap.read p with parentId := newParentId }
        else heap.read p
  | [], heap, p => by simp [reparentLoop]
  | q :: rest, heap, p => by
    unfold reparentLoop
    by_cases hq : (heap.read q).parentId = parentId
    · rw [if_pos hq, reparentLoop_read]
      by_cases hpq : p = q
      · -- a child met again on the way has its new parent already
        subst hpq
        simp only [Heap.read_modify_self, List.mem_cons, true_or, true_and, hq, if_true]
        split <;> rfl
      · simp only [Heap.read_modify_of_ne _ _ hpq, List.mem_cons, hpq, false_or]
    · rw [if_neg hq, reparentLoop_read]
      by_cases hpq : p = q
      · subst hpq; simp [hq]
      · simp only [List.mem_cons, hpq, false_or]

@[simp] theorem reparentLoop_next (parentId newParentId : Nat) :
    ∀ (processes : List ProcessPtr) (heap : Heap Process),
      (reparentLoop parentId newParentId processes heap).next = heap.next
  | [], _ => rfl
  | q :: rest, heap => by
    unfold reparentLoop
    split
    · rw [reparentLoop_next]; rfl
    · exact reparentLoop_next parentId newParentId rest heap

end EmblaOs
