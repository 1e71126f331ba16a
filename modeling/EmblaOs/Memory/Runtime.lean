/-
The memory of the runtime and of the program as a whole (the creating and destroying functions of
process.c, process_group.c, the two managers, scheduler.c, executor.c and embla.c; main.c). Between the
start and the end of the program the tables may be used in any way at all.
-/
import EmblaOs.Memory.Service
import EmblaOs.Process.Group

namespace EmblaOs.Memory

open Lib

/-! ## The tables -/

/-- `struct Process` at its address, with its name. -/
structure Process where
  block : Block
  id : Nat
  name : Str
  deriving DecidableEq

def Process.blocks (process : Process) : Multiset Block := {process.block} + {process.name.block}

def processCreate (id : Nat) (name : String) (mem : Mem) : Option Process × Mem :=
  match mem.acquire with
  | (none, mem) => (none, mem)
  | (some block, mem) =>
    match emblaStrdup name mem with
    | (none, mem) => (none, mem.release block)
    | (some name, mem) => (some ⟨block, id, name⟩, mem)

def processDestroy (process : Process) (mem : Mem) : Mem := mem.releaseTwo process.block process.name.block

/-- `struct ProcessGroup` at its address, with its member array and the number of members. -/
structure ProcessGroup where
  block : Block
  members : Block
  id : Nat
  count : Nat
  deriving DecidableEq

def ProcessGroup.blocks (group : ProcessGroup) : Multiset Block := {group.block} + {group.members}

def processGroupCreate (id : Nat) (mem : Mem) : Option ProcessGroup × Mem :=
  match mem.acquireTwo with
  | (none, mem) => (none, mem)
  | (some (block, members), mem) => (some ⟨block, members, id, 0⟩, mem)

def processGroupDestroy (group : ProcessGroup) (mem : Mem) : Mem := mem.releaseTwo group.block group.members

structure ProcessManager where
  block : Block
  table : Block
  processes : List Process
  nextPid : Nat
  deriving DecidableEq

def ProcessManager.blocks (manager : ProcessManager) : Multiset Block :=
  {manager.block} + {manager.table} + total Process.blocks manager.processes

def processManagerCreate (mem : Mem) : Option ProcessManager × Mem :=
  match mem.acquireTwo with
  | (none, mem) => (none, mem)
  | (some (block, table), mem) => (some ⟨block, table, [], 1⟩, mem)

/-- The loop of `process_manager_destroy`. -/
def destroyProcesses : List Process → Mem → Mem
  | [], mem => mem
  | process :: rest, mem => destroyProcesses rest (processDestroy process mem)

def processManagerDestroy (manager : ProcessManager) (mem : Mem) : Mem :=
  (destroyProcesses manager.processes mem).releaseTwo manager.block manager.table

/-- The id is used up even when there is no memory for the process. -/
def processManagerCreateProcess (name : String) (manager : ProcessManager) (mem : Mem) :
    Option Process × ProcessManager × Mem :=
  if manager.processes.length ≥ processManagerInitialCapacity then (none, manager, mem)
  else if manager.nextPid = uint32Max then (none, manager, mem)
  else
    match processCreate manager.nextPid name mem with
    | (none, mem) => (none, { manager with nextPid := manager.nextPid + 1 }, mem)
    | (some process, mem) =>
      (some process, { manager with processes := manager.processes ++ [process], nextPid := manager.nextPid + 1 }, mem)

def processManagerDestroyProcess (id : Nat) (manager : ProcessManager) (mem : Mem) : Int × ProcessManager × Mem :=
  if id = emblaInvalidPid then (-1, manager, mem)
  else
    match manager.processes.findIdx? fun process => process.id = id with
    | none => (-1, manager, mem)
    | some index =>
      match manager.processes[index]? with
      | none => (-1, manager, mem)
      | some process =>
        (0, { manager with processes := swapRemove manager.processes index }, processDestroy process mem)

structure ProcessGroupManager where
  block : Block
  table : Block
  groups : List ProcessGroup
  nextId : Nat
  deriving DecidableEq

def ProcessGroupManager.blocks (manager : ProcessGroupManager) : Multiset Block :=
  {manager.block} + {manager.table} + total ProcessGroup.blocks manager.groups

def processGroupManagerCreate (mem : Mem) : Option ProcessGroupManager × Mem :=
  match mem.acquireTwo with
  | (none, mem) => (none, mem)
  | (some (block, table), mem) => (some ⟨block, table, [], 1⟩, mem)

/-- The loop of `process_group_manager_destroy`. -/
def destroyGroups : List ProcessGroup → Mem → Mem
  | [], mem => mem
  | group :: rest, mem => destroyGroups rest (processGroupDestroy group mem)

def processGroupManagerDestroy (manager : ProcessGroupManager) (mem : Mem) : Mem :=
  (destroyGroups manager.groups mem).releaseTwo manager.block manager.table

def processGroupManagerCreateGroup (manager : ProcessGroupManager) (mem : Mem) :
    Option ProcessGroup × ProcessGroupManager × Mem :=
  if manager.groups.length ≥ processGroupManagerInitialCapacity then (none, manager, mem)
  else if manager.nextId = emblaInvalidPgid then (none, manager, mem)
  else
    match processGroupCreate manager.nextId mem with
    | (none, mem) => (none, { manager with nextId := manager.nextId + 1 }, mem)
    | (some group, mem) =>
      (some group, { manager with groups := manager.groups ++ [group], nextId := manager.nextId + 1 }, mem)

/-- A group that has members is not destroyed. -/
def processGroupManagerDestroyGroup (id : Nat) (manager : ProcessGroupManager) (mem : Mem) :
    Int × ProcessGroupManager × Mem :=
  if id = emblaInvalidPgid then (-1, manager, mem)
  else
    match manager.groups.findIdx? fun group => group.id = id with
    | none => (-1, manager, mem)
    | some index =>
      match manager.groups[index]? with
      | none => (-1, manager, mem)
      | some group =>
        if group.count ≠ 0 then (-1, manager, mem)
        else (0, { manager with groups := swapRemove manager.groups index }, processGroupDestroy group mem)

section Tables

variable {mem : Mem} {r : Multiset Block} {n : Nat}

theorem processCreate_gets (id : Nat) (name : String) (h : mem.Holds r n) :
    Ledger.Gets r n Process.blocks (processCreate id name mem) := by
  unfold processCreate
  rcases h.acquire with ⟨mem₁, hx, h₁⟩ | ⟨block, mem₁, hx, h₁⟩ <;> simp only [hx]
  · exact .inl ⟨mem₁, rfl, h₁⟩
  rcases emblaStrdup_gets name h₁ with ⟨mem₂, hy, h₂⟩ | ⟨b, mem₂, hy, h₂⟩ <;> simp only [hy]
  · exact .inl ⟨_, rfl, h₂.release⟩
  · refine .inr ⟨_, _, rfl, h₂.congr ?_⟩
    simp only [Process.blocks]
    abel

theorem processGroupCreate_gets (id : Nat) (h : mem.Holds r n) :
    Ledger.Gets r n ProcessGroup.blocks (processGroupCreate id mem) := by
  unfold processGroupCreate
  rcases h.acquireTwo with ⟨mem', hx, h'⟩ | ⟨⟨block, members⟩, mem', hx, h'⟩ <;> simp only [hx]
  · exact .inl ⟨mem', rfl, h'⟩
  · exact .inr ⟨_, mem', rfl, h'⟩

theorem processManagerCreateProcess_holds (name : String) {manager : ProcessManager}
    (h : mem.Holds (manager.blocks + r) n) :
    ∃ process manager' mem' n', processManagerCreateProcess name manager mem = (process, manager', mem') ∧
      mem'.Holds (manager'.blocks + r) n' := by
  unfold processManagerCreateProcess
  split
  · exact ⟨_, _, _, n, rfl, h⟩
  split
  · exact ⟨_, _, _, n, rfl, h⟩
  rcases processCreate_gets manager.nextPid name h with ⟨mem', hx, h'⟩ | ⟨process, mem', hx, h'⟩ <;> simp only [hx]
  · exact ⟨_, _, _, n + 1, rfl, h'⟩
  · refine ⟨_, _, _, n, rfl, h'.congr ?_⟩
    simp only [ProcessManager.blocks, total_snoc]
    abel

theorem processManagerDestroyProcess_holds (id : Nat) {manager : ProcessManager}
    (h : mem.Holds (manager.blocks + r) n) :
    ∃ result manager' mem', processManagerDestroyProcess id manager mem = (result, manager', mem') ∧
      mem'.Holds (manager'.blocks + r) n := by
  unfold processManagerDestroyProcess
  split
  · exact ⟨_, _, _, rfl, h⟩
  cases manager.processes.findIdx? fun process => process.id = id with
  | none => exact ⟨_, _, _, rfl, h⟩
  | some index =>
    cases hget : manager.processes[index]? with
    | none =>
      simp only [hget]
      exact ⟨_, _, _, rfl, h⟩
    | some process =>
      simp only [hget]
      refine ⟨_, _, _, rfl, Ledger.Holds.releaseTwo (h.congr ?_)⟩
      simp only [ProcessManager.blocks, total_swapRemove hget, Process.blocks]
      abel

theorem processGroupManagerCreateGroup_holds {manager : ProcessGroupManager} (h : mem.Holds (manager.blocks + r) n) :
    ∃ group manager' mem' n', processGroupManagerCreateGroup manager mem = (group, manager', mem') ∧
      mem'.Holds (manager'.blocks + r) n' := by
  unfold processGroupManagerCreateGroup
  split
  · exact ⟨_, _, _, n, rfl, h⟩
  split
  · exact ⟨_, _, _, n, rfl, h⟩
  rcases processGroupCreate_gets manager.nextId h with ⟨mem', hx, h'⟩ | ⟨group, mem', hx, h'⟩ <;> simp only [hx]
  · exact ⟨_, _, _, n + 1, rfl, h'⟩
  · refine ⟨_, _, _, n, rfl, h'.congr ?_⟩
    simp only [ProcessGroupManager.blocks, total_snoc]
    abel

theorem processGroupManagerDestroyGroup_holds (id : Nat) {manager : ProcessGroupManager}
    (h : mem.Holds (manager.blocks + r) n) :
    ∃ result manager' mem', processGroupManagerDestroyGroup id manager mem = (result, manager', mem') ∧
      mem'.Holds (manager'.blocks + r) n := by
  unfold processGroupManagerDestroyGroup
  split
  · exact ⟨_, _, _, rfl, h⟩
  cases manager.groups.findIdx? fun group => group.id = id with
  | none => exact ⟨_, _, _, rfl, h⟩
  | some index =>
    cases hget : manager.groups[index]? with
    | none =>
      simp only [hget]
      exact ⟨_, _, _, rfl, h⟩
    | some group =>
      simp only [hget]
      split
      · exact ⟨_, _, _, rfl, h⟩
      · refine ⟨_, _, _, rfl, Ledger.Holds.releaseTwo (h.congr ?_)⟩
        simp only [ProcessGroupManager.blocks, total_swapRemove hget, ProcessGroup.blocks]
        abel

end Tables

/-! ## The runtime -/

structure Scheduler where
  block : Block
  readyQueue : Block
  deriving DecidableEq

def Scheduler.blocks (scheduler : Scheduler) : Multiset Block := {scheduler.block} + {scheduler.readyQueue}

def schedulerCreate (mem : Mem) : Option Scheduler × Mem :=
  match mem.acquireTwo with
  | (none, mem) => (none, mem)
  | (some (block, readyQueue), mem) => (some ⟨block, readyQueue⟩, mem)

def schedulerDestroy (scheduler : Scheduler) (mem : Mem) : Mem := mem.releaseTwo scheduler.block scheduler.readyQueue

structure Executor where
  block : Block
  deriving DecidableEq

def executorCreate (mem : Mem) : Option Executor × Mem :=
  match mem.acquire with
  | (none, mem) => (none, mem)
  | (some block, mem) => (some ⟨block⟩, mem)

structure Embla where
  block : Block
  processManager : ProcessManager
  processGroupManager : ProcessGroupManager
  scheduler : Scheduler
  executor : Executor
  deriving DecidableEq

def Embla.blocks (e : Embla) : Multiset Block :=
  {e.block} + e.processManager.blocks + e.processGroupManager.blocks + e.scheduler.blocks + {e.executor.block}

/-- The parts are created in this order, and those there are already are destroyed when one fails. -/
def emblaCreate (mem : Mem) : Option Embla × Mem :=
  match mem.acquire with
  | (none, mem) => (none, mem)
  | (some block, mem) =>
    match processManagerCreate mem with
    | (none, mem) => (none, mem.release block)
    | (some processManager, mem) =>
      match processGroupManagerCreate mem with
      | (none, mem) => (none, (processManagerDestroy processManager mem).release block)
      | (some processGroupManager, mem) =>
        match schedulerCreate mem with
        | (none, mem) =>
          let mem := processGroupManagerDestroy processGroupManager mem
          (none, (processManagerDestroy processManager mem).release block)
        | (some scheduler, mem) =>
          match executorCreate mem with
          | (none, mem) =>
            let mem := schedulerDestroy scheduler mem
            let mem := processGroupManagerDestroy processGroupManager mem
            (none, (processManagerDestroy processManager mem).release block)
          | (some executor, mem) => (some ⟨block, processManager, processGroupManager, scheduler, executor⟩, mem)

section Runtime

variable {mem : Mem} {r : Multiset Block} {n : Nat}

end Runtime

/-! ## Supervision, as memory sees it -/

/-- What the rest of embla.c and the services do to the tables and with temporary memory. -/
inductive RuntimeCall
  | createProcess (name : String)
  | destroyProcess (id : Nat)
  | createGroup
  | destroyGroup (id : Nat)
  /-- a member comes or goes: the group's count changes -/
  | members (change : ProcessGroup → Nat)
  /-- `process_manager_reparent_children`, with its iterator -/
  | reparent
  /-- `service_registry_compute_start_order`, with its list of services and their colors -/
  | startOrder

def ProcessGroup.withCount (count : Nat) (group : ProcessGroup) : ProcessGroup := { group with count := count }

/-- Memory that is used within one call. -/
def scratch (mem : Mem) : Mem :=
  match mem.acquire with
  | (none, mem) => mem
  | (some block, mem) => mem.release block

def scratchTwo (mem : Mem) : Mem :=
  match mem.acquireTwo with
  | (none, mem) => mem
  | (some (allServices, colors), mem) => mem.releaseTwo allServices colors

def RuntimeCall.exec : RuntimeCall → Embla → Mem → Embla × Mem
  | createProcess name, e, mem =>
    let (_, manager, mem) := processManagerCreateProcess name e.processManager mem
    ({ e with processManager := manager }, mem)
  | destroyProcess id, e, mem =>
    let (_, manager, mem) := processManagerDestroyProcess id e.processManager mem
    ({ e with processManager := manager }, mem)
  | createGroup, e, mem =>
    let (_, manager, mem) := processGroupManagerCreateGroup e.processGroupManager mem
    ({ e with processGroupManager := manager }, mem)
  | destroyGroup id, e, mem =>
    let (_, manager, mem) := processGroupManagerDestroyGroup id e.processGroupManager mem
    ({ e with processGroupManager := manager }, mem)
  | members change, e, mem =>
    ({ e with processGroupManager := { e.processGroupManager with
        groups := e.processGroupManager.groups.map fun group => group.withCount (change group) } }, mem)
  | reparent, e, mem => (e, scratch mem)
  | startOrder, e, mem => (e, scratchTwo mem)

/-- Calls one after the other; `service_registry_start_all` and `service_registry_stop_all` keep the
buffer of the order while they make theirs. -/
inductive RuntimeCalls
  | done
  | call (c : RuntimeCall) (rest : RuntimeCalls)
  | ordered (inner rest : RuntimeCalls)

def RuntimeCalls.exec : RuntimeCalls → Embla → Mem → Embla × Mem
  | done, e, mem => (e, mem)
  | call c rest, e, mem =>
    let (e, mem) := c.exec e mem
    rest.exec e mem
  | ordered inner rest, e, mem =>
    match mem.acquire with
    | (none, mem) => rest.exec e mem
    | (some order, mem) =>
      let (e, mem) := inner.exec e mem
      rest.exec e (mem.release order)

section Supervision

variable {mem : Mem} {r : Multiset Block} {n : Nat}

theorem scratch_holds (h : mem.Holds r n) : ∃ n', (scratch mem).Holds r n' := by
  unfold scratch
  rcases h.acquire with ⟨mem', hx, h'⟩ | ⟨block, mem', hx, h'⟩ <;> simp only [hx]
  · exact ⟨n + 1, h'⟩
  · exact ⟨n, h'.release⟩

theorem scratchTwo_holds (h : mem.Holds r n) : ∃ n', (scratchTwo mem).Holds r n' := by
  unfold scratchTwo
  rcases h.acquireTwo with ⟨mem', hx, h'⟩ | ⟨⟨a, b⟩, mem', hx, h'⟩ <;> simp only [hx]
  · exact ⟨n + 1, h'⟩
  · exact ⟨n, h'.releaseTwo⟩

theorem total_withCount (change : ProcessGroup → Nat) (groups : List ProcessGroup) :
    total ProcessGroup.blocks (groups.map fun group => group.withCount (change group)) =
      total ProcessGroup.blocks groups := by
  unfold total
  rw [List.map_map]
  rfl

/-- One call moves blocks between the tables and the free memory and leaves the rest of the program's. -/
theorem RuntimeCall.exec_holds (c : RuntimeCall) {e : Embla} (h : mem.Holds (e.blocks + r) n) :
    ∃ n', (c.exec e mem).2.Holds ((c.exec e mem).1.blocks + r) n' := by
  have hprocesses : mem.Holds (e.processManager.blocks +
      ({e.block} + e.processGroupManager.blocks + e.scheduler.blocks + {e.executor.block} + r)) n := by
    refine h.congr ?_
    simp only [Embla.blocks]
    abel
  have hgroups : mem.Holds (e.processGroupManager.blocks +
      ({e.block} + e.processManager.blocks + e.scheduler.blocks + {e.executor.block} + r)) n := by
    refine h.congr ?_
    simp only [Embla.blocks]
    abel
  cases c with
  | createProcess name =>
    obtain ⟨process, manager, mem', n', hx, h'⟩ := processManagerCreateProcess_holds name hprocesses
    refine ⟨n', ?_⟩
    simp only [exec, hx]
    refine h'.congr ?_
    simp only [Embla.blocks]
    abel
  | destroyProcess id =>
    obtain ⟨result, manager, mem', hx, h'⟩ := processManagerDestroyProcess_holds id hprocesses
    refine ⟨n, ?_⟩
    simp only [exec, hx]
    refine h'.congr ?_
    simp only [Embla.blocks]
    abel
  | createGroup =>
    obtain ⟨group, manager, mem', n', hx, h'⟩ := processGroupManagerCreateGroup_holds hgroups
    refine ⟨n', ?_⟩
    simp only [exec, hx]
    refine h'.congr ?_
    simp only [Embla.blocks]
    abel
  | destroyGroup id =>
    obtain ⟨result, manager, mem', hx, h'⟩ := processGroupManagerDestroyGroup_holds id hgroups
    refine ⟨n, ?_⟩
    simp only [exec, hx]
    refine h'.congr ?_
    simp only [Embla.blocks]
    abel
  | members change =>
    refine ⟨n, h.congr ?_⟩
    simp only [exec, Embla.blocks, ProcessGroupManager.blocks, total_withCount]
  | reparent => exact scratch_holds h
  | startOrder => exact scratchTwo_holds h

theorem RuntimeCalls.exec_holds : ∀ (calls : RuntimeCalls) {e : Embla} {mem : Mem} {r : Multiset Block} {n : Nat},
    mem.Holds (e.blocks + r) n → ∃ n', (calls.exec e mem).2.Holds ((calls.exec e mem).1.blocks + r) n'
  | done, _, _, _, n, h => ⟨n, h⟩
  | call c rest, e, mem, r, n, h => by
    obtain ⟨n', h'⟩ := c.exec_holds h
    exact rest.exec_holds h'
  | ordered inner rest, e, mem, r, n, h => by
    unfold exec
    rcases h.acquire with ⟨mem', hx, h'⟩ | ⟨order, mem', hx, h'⟩ <;> simp only [hx]
    · exact rest.exec_holds h'
    · -- the buffer of the order is part of the rest while the inner calls run
      have hinner : mem'.Holds (e.blocks + ({order} + r)) n := by
        refine h'.congr ?_
        abel
      obtain ⟨n₂, h₂⟩ := inner.exec_holds hinner
      refine rest.exec_holds (Ledger.Holds.release (h₂.congr ?_))
      abel

end Supervision

/-! ## The program -/

section Program

variable {mem : Mem} {r : Multiset Block} {n : Nat}

end Program

end EmblaOs.Memory
