/-
The runtime (executor.c, embla.c): spawning with its rollback, signalling, reaping, the handling
of one child event and the run loop. Every function takes the whole runtime and returns it with
its result; NULL arguments are excluded by the types.
-/
import EmblaOs.Process.Group
import EmblaOs.Process.Scheduler

namespace EmblaOs

open Lib

inductive EmblaState
  | stopped
  | running
  | stopping
  deriving DecidableEq, Repr

/-- `struct Embla` with the two heaps its pointers go to and the host below its executor. -/
structure Embla where
  processHeap : Heap Process
  groupHeap : Heap ProcessGroup
  processManager : ProcessManager
  processGroupManager : ProcessGroupManager
  scheduler : Scheduler
  state : EmblaState
  host : Host

def emblaCreate (host : Host) : Embla where
  processHeap := noProcesses
  groupHeap := noGroups
  processManager := processManagerCreate
  processGroupManager := processGroupManagerCreate
  scheduler := schedulerCreate
  state := .stopped
  host := host

namespace Embla

def process (e : Embla) (p : ProcessPtr) : Process := e.processHeap.read p

def group (e : Embla) (g : GroupPtr) : ProcessGroup := e.groupHeap.read g

def modifyProcess (e : Embla) (p : ProcessPtr) (f : Process → Process) : Embla :=
  { e with processHeap := e.processHeap.modify p f }

def modifyGroup (e : Embla) (g : GroupPtr) (f : ProcessGroup → ProcessGroup) : Embla :=
  { e with groupHeap := e.groupHeap.modify g f }

/-- `p` is in the process table. -/
def Tracked (e : Embla) (p : ProcessPtr) : Prop := p ∈ e.processManager.processes

instance (e : Embla) (p : ProcessPtr) : Decidable (e.Tracked p) :=
  inferInstanceAs (Decidable (p ∈ e.processManager.processes))

@[simp] theorem process_modifyProcess_self (e : Embla) (p : ProcessPtr) (f : Process → Process) :
    (e.modifyProcess p f).process p = f (e.process p) := Heap.read_modify_self ..

theorem process_modifyProcess_of_ne (e : Embla) {p q : ProcessPtr} (f : Process → Process) (h : q ≠ p) :
    (e.modifyProcess p f).process q = e.process q := Heap.read_modify_of_ne _ _ h

@[simp] theorem group_modifyGroup_self (e : Embla) (g : GroupPtr) (f : ProcessGroup → ProcessGroup) :
    (e.modifyGroup g f).group g = f (e.group g) := Heap.read_modify_self ..

theorem group_modifyGroup_of_ne (e : Embla) {g g' : GroupPtr} (f : ProcessGroup → ProcessGroup) (h : g' ≠ g) :
    (e.modifyGroup g f).group g' = e.group g' := Heap.read_modify_of_ne _ _ h

end Embla

/-! ## The executor -/

/-- `executor_kill_and_reap`. -/
def executorKillAndReap (pid : Int) (e : Embla) : Int × Embla :=
  let (answer, host) := e.host.kill pid .sigkill
  if answer = .error then (-1, { e with host := host })
  else
    let (collected, host) := host.waitpid pid
    if collected then (0, { e with host := host }) else (-1, { e with host := host })

/-- The fields of the record after `executor_apply_rusage`. -/
def executorApplyRusage (platform : Platform) (process : Process) (usage : Rusage) : Process :=
  { process with
    cpuUserSeconds := usage.utime.sec + usage.utime.usec / 1000000
    cpuSystemSeconds := usage.stime.sec + usage.stime.usec / 1000000
    maxRssBytes := platformNormalizeMaxRss platform usage.maxrss }

/-- The parent's side of `executor_spawn`. -/
def executorSpawn (process : ProcessPtr) (targetHostGroupId : Int) (e : Embla) : Int × Embla :=
  match e.host.fork targetHostGroupId with
  | (none, host) => (-1, { e with host := host })
  | (some pid, host) =>
    let (answer, host) := host.setpgid
    if answer = .error then (-1, (executorKillAndReap pid.pid { e with host := host }).2)
    else (0, { e with host := host }.modifyProcess process fun p => { p with hostId := pid.pid })

def executorTerminate (process : ProcessPtr) (e : Embla) : Int × Embla :=
  if (e.process process).hostId = emblaInvalidHostPid then (-1, e)
  else executorKillAndReap (e.process process).hostId e

/-- 1 and an event, 0 when there is none, -1 when the host call failed. -/
def executorPollAny (e : Embla) : Int × Option ChildEvent × Embla :=
  match e.host.wait4 with
  | (.error, host) => (-1, none, { e with host := host })
  | (.echild, host) => (0, none, { e with host := host })
  | (.nothing, host) => (0, none, { e with host := host })
  | (.event event, host) => (1, some event, { e with host := host })

def executorSignal (process : ProcessPtr) (signal : Signal) (e : Embla) : Int × Embla :=
  if (e.process process).hostId = emblaInvalidHostPid then (-1, e)
  else
    let (answer, host) := e.host.kill (e.process process).hostId signal
    if answer ≠ .ok then (-1, { e with host := host }) else (0, { e with host := host })

def executorSignalGroup (hostGroupId : Int) (signal : Signal) (e : Embla) : Int × Embla :=
  if hostGroupId = emblaInvalidHostPgid then (-1, e)
  else
    let (answer, host) := e.host.killGroup hostGroupId signal
    if answer ≠ .ok then (-1, { e with host := host }) else (0, { e with host := host })

/-! ## Spawning -/

def emblaSpawnRollback (group : GroupPtr) (process : ProcessPtr) (processId : Nat) (hostProcessSpawned : Bool)
    (e : Embla) : Embla :=
  let e := if hostProcessSpawned then (executorTerminate process e).2 else e
  let e := e.modifyGroup group fun g => (processGroupRemove g process).2
  { e with processManager := (processManagerDestroyProcess e.processHeap e.processManager processId).2 }

/-- The end of `embla_spawn_internal`, from the transition to READY on. -/
def emblaSpawnReady (group : GroupPtr) (process : ProcessPtr) (processId : Nat) (e : Embla) :
    Option ProcessPtr × Embla :=
  let (result, record) := processTransition (e.process process) .ready
  if result ≠ 0 then (none, emblaSpawnRollback group process processId true e)
  else
    let e := e.modifyProcess process fun _ => record
    let (result, scheduler) := schedulerAdd e.scheduler process
    if result ≠ 0 then (none, emblaSpawnRollback group process processId true e)
    else (some process, { e with scheduler := scheduler })

/-- `embla_spawn_internal` from `executor_spawn` on. -/
def emblaSpawnHost (group : GroupPtr) (process : ProcessPtr) (processId : Nat) (e : Embla) :
    Option ProcessPtr × Embla :=
  let targetHostGroupId := (e.group group).hostId
  let (result, e) := executorSpawn process targetHostGroupId e
  if result ≠ 0 then (none, emblaSpawnRollback group process processId false e)
  else if targetHostGroupId = emblaInvalidHostPgid then
    let leaderHostGroupId := (e.process process).hostId
    emblaSpawnReady group process processId
      (e.modifyGroup group fun g => processGroupSetHostId g leaderHostGroupId)
  else emblaSpawnReady group process processId e

/-- `embla_spawn_internal` once the process record exists. -/
def emblaSpawnMember (group : GroupPtr) (process : ProcessPtr) (e : Embla) : Option ProcessPtr × Embla :=
  let processId := (e.process process).id
  let (result, members) := processGroupAdd e.processHeap (e.group group) process
  if result ≠ 0 then (none, emblaSpawnRollback group process processId false e)
  else emblaSpawnHost group process processId (e.modifyGroup group fun _ => members)

def emblaSpawnInternal (parentId groupId : Nat) (name : String) (e : Embla) : Option ProcessPtr × Embla :=
  match processGroupManagerGet e.groupHeap e.processGroupManager groupId with
  | none => (none, e)
  | some group =>
    if (e.group group).hasMaxMembers ∧ (e.group group).processes.length ≥ (e.group group).maxMembers then
      (none, e)
    else
      match processManagerCreateProcess parentId groupId name e.processHeap e.processManager e.host with
      | (none, heap, manager, host) =>
        (none, { e with processHeap := heap, processManager := manager, host := host })
      | (some process, heap, manager, host) =>
        emblaSpawnMember group process { e with processHeap := heap, processManager := manager, host := host }

def emblaSpawn (name : String) (e : Embla) : Option ProcessPtr × Embla :=
  match processGroupManagerCreateGroup e.groupHeap e.processGroupManager e.host with
  | (none, heap, manager, host) =>
    (none, { e with groupHeap := heap, processGroupManager := manager, host := host })
  | (some group, heap, manager, host) =>
    let e := { e with groupHeap := heap, processGroupManager := manager, host := host }
    let groupId := (e.group group).id
    match emblaSpawnInternal emblaRootPid groupId name e with
    | (none, e) =>
      (none, { e with
        processGroupManager := (processGroupManagerDestroyGroup e.groupHeap e.processGroupManager groupId).2 })
    | (some process, e) => (some process, e)

def emblaSpawnChild (parent : ProcessPtr) (name : String) (e : Embla) : Option ProcessPtr × Embla :=
  let groupId := (e.process parent).groupId
  if groupId = emblaInvalidPgid then (none, e)
  else emblaSpawnInternal (e.process parent).id groupId name e

/-! ## Signalling -/

def emblaTerminate (process : ProcessPtr) (e : Embla) : Int × Embla :=
  if (e.process process).state = .terminated then (-1, e) else executorSignal process .sigterm e

def emblaStopProcess (process : ProcessPtr) (e : Embla) : Int × Embla :=
  if (e.process process).state = .terminated ∨ (e.process process).state = .stopped then (-1, e)
  else executorSignal process .sigstop e

def emblaContinueProcess (process : ProcessPtr) (e : Embla) : Int × Embla :=
  if (e.process process).state ≠ .stopped then (-1, e) else executorSignal process .sigcont e

def emblaKill (process : ProcessPtr) (e : Embla) : Int × Embla :=
  if (e.process process).state = .terminated then (-1, e) else executorSignal process .sigkill e

/-- `embla_stop_group`, `embla_continue_group`, `embla_terminate_group` and `embla_kill_group`
are this with their signal. -/
def emblaSignalGroup (group : GroupPtr) (signal : Signal) (e : Embla) : Int × Embla :=
  if (e.group group).hostId = emblaInvalidHostPgid then (-1, e)
  else executorSignalGroup (e.group group).hostId signal e

/-! ## Reaping -/

def emblaReapFoundProcess (process : ProcessPtr) (e : Embla) : Int × Embla :=
  let processId := (e.process process).id
  let groupId := (e.process process).groupId
  match processGroupManagerGet e.groupHeap e.processGroupManager groupId with
  | none => (-1, e)
  | some group =>
    let (result, members) := processGroupRemove (e.group group) process
    if result ≠ 0 then (-1, e)
    else
      let e := e.modifyGroup group fun _ => members
      let groupEmpty := (e.group group).processes.length = 0
      let (result, manager) := processManagerDestroyProcess e.processHeap e.processManager processId
      let e := { e with processManager := manager }
      if result ≠ 0 then (-1, e)
      else if groupEmpty then
        let (result, manager) := processGroupManagerDestroyGroup e.groupHeap e.processGroupManager groupId
        let e := { e with processGroupManager := manager }
        if result ≠ 0 then (-1, e) else (0, e)
      else (0, e)

/-- The result and, when it is 0, the id stored through `child_id`. -/
def emblaReapChild (parentId : Nat) (e : Embla) : Int × Option Nat × Embla :=
  match processManagerWaitChild e.processHeap e.processManager parentId with
  | none => (-1, none, e)
  | some process =>
    let processId := (e.process process).id
    let (result, e) := emblaReapFoundProcess process e
    if result ≠ 0 then (-1, none, e) else (0, some processId, e)

def emblaReapProcess (processId : Nat) (e : Embla) : Int × Embla :=
  match processManagerGet e.processHeap e.processManager processId with
  | none => (-1, e)
  | some process =>
    if (e.process process).state ≠ .terminated then (-1, e) else emblaReapFoundProcess process e

/-! ## The run loop -/

/-- The loop of `embla_reap_root_children`; each successful round takes one process out of the
table, so as many rounds as there are processes are enough. -/
def reapRootLoop : Nat → Embla → Int × Embla
  | 0, e => (0, e)
  | rounds + 1, e =>
    match processManagerWaitChild e.processHeap e.processManager emblaRootPid with
    | none => (0, e)
    | some _ =>
      let (result, _, e) := emblaReapChild emblaRootPid e
      if result ≠ 0 then (-1, e) else reapRootLoop rounds e

def emblaReapRootChildren (e : Embla) : Int × Embla := reapRootLoop (e.processManager.processes.length + 1) e

def emblaShutdown (e : Embla) : Int × Embla :=
  if e.state ≠ .stopping then (-1, e)
  else
    let (result, e) := emblaReapRootChildren e
    if result ≠ 0 then (-1, e) else (0, { e with state := .stopped })

/-- The `terminated` label of `embla_handle_child_event`, the exit code or the signal already
recorded. -/
def emblaHandleTerminated (process : ProcessPtr) (usage : Rusage) (e : Embla) : Int × Embla :=
  let (result, record) := processTransition (e.process process) .terminated
  if result ≠ 0 then (-1, e)
  else
    let e := e.modifyProcess process fun _ => executorApplyRusage e.host.platform record usage
    let (result, heap, host) := processManagerReparentChildren e.processHeap e.processManager e.host
      (e.process process).id emblaRootPid
    let e := { e with processHeap := heap, host := host }
    if result ≠ 0 then (-1, e)
    else
      let (result, scheduler) := schedulerRemove e.scheduler process
      if result ≠ 0 then (-1, e) else (0, { e with scheduler := scheduler })

def emblaHandleChildEvent (event : ChildEvent) (e : Embla) : Int × Embla :=
  match processManagerGetByHostId e.processHeap e.processManager event.hostId.pid with
  | none => (0, e)
  | some process =>
    match event.status with
    | .exited code =>
      emblaHandleTerminated process event.usage (e.modifyProcess process fun p => { p with exitCode := code })
    | .signaled signal =>
      emblaHandleTerminated process event.usage (e.modifyProcess process fun p => { p with termSignal := signal })
    | .stopped _ =>
      let (result, record) := processTransition (e.process process) .stopped
      (result, e.modifyProcess process fun _ => record)
    | .continued =>
      let (result, record) := processTransition (e.process process) .running
      (result, e.modifyProcess process fun _ => record)
    | .other => (0, e)

def emblaStop (e : Embla) : Embla := if e.state ≠ .running then e else { e with state := .stopping }

/-- `scheduler_dispatch` on the runtime. -/
def emblaDispatch (e : Embla) : Int × Embla :=
  let (result, scheduler, heap) := schedulerDispatch e.scheduler e.processHeap
  (result, { e with scheduler := scheduler, processHeap := heap })

/-- Between two looks at the loop condition: one poll, the event, the next dispatch and the check
for live processes. `some` ends `embla_run` with -1, `none` goes back to the condition. -/
def emblaRunBody (e : Embla) : Option Int × Embla :=
  let (result, event, e) := executorPollAny e
  if result < 0 then (some (-1), { e with state := .stopped })
  else
    let (failed, e) :=
      match event with
      | none => (false, e)
      | some event =>
        let (result, e) := emblaHandleChildEvent event e
        if result ≠ 0 then (true, e)
        else if e.scheduler.current = none ∧ e.scheduler.count > 0 then
          let (result, e) := emblaDispatch e
          if result ≠ 0 then (true, e) else (false, e)
        else (false, e)
    if failed then (some (-1), { e with state := .stopped })
    else if processManagerLiveCount e.processHeap e.processManager = 0 then (none, emblaStop e)
    else (none, e)

/-- The loop of `embla_run` and its end; `none` when it has not returned after `fuel` rounds. A
call of `embla_stop` from outside takes effect at the loop condition. -/
def emblaRunLoop : Nat → Embla → Option (Int × Embla)
  | 0, _ => none
  | fuel + 1, e =>
    let (stopRequested, host) := e.host.stopRequest
    let e := { e with host := host }
    let e := if stopRequested then emblaStop e else e
    if e.state = .running then
      match emblaRunBody e with
      | (some result, e) => some (result, e)
      | (none, e) => emblaRunLoop fuel e
    else if e.state = .stopping then
      let (result, e) := emblaShutdown e
      if result ≠ 0 then some (-1, e) else some (0, e)
    else some (0, e)

def emblaRun (fuel : Nat) (e : Embla) : Option (Int × Embla) :=
  if e.state ≠ .stopped then some (-1, e)
  else
    let e := { e with state := .running }
    if e.scheduler.count > 0 then
      let (result, e) := emblaDispatch e
      if result ≠ 0 then some (-1, { e with state := .stopped }) else emblaRunLoop fuel e
    else emblaRunLoop fuel e

end EmblaOs
