/-
What the host last said of each child, read off the calls made so far: a fork brings it up, a report
stops it, continues it or says that it is gone. Spawning and signalling move on in the host's
answers, but say something new only of the child that the spawn forks.
-/
import EmblaOs.Process.Events

namespace EmblaOs

open Lib

inductive ChildCondition
  | unknown
  | up
  | stopped
  | gone
  deriving DecidableEq, Repr

def WaitStatus.condition : WaitStatus → Option ChildCondition
  | .exited _ => some .gone
  | .signaled _ => some .gone
  | .stopped _ => some .stopped
  | .continued => some .up
  | .other => none

/-- What a host call says of the child `pid`, if anything. -/
def HostCall.condition (pid : Int) : HostCall → Option ChildCondition
  | .forked child _ => if child = pid then some .up else none
  | .reported event => if event.hostId.pid = pid then event.status.condition else none
  | _ => none

/-- The last word on the child `pid`. -/
def Host.condition (host : Host) (pid : Int) : ChildCondition :=
  (host.trace.findSome? (HostCall.condition pid)).getD .unknown

/-- A child that is up may stop or end, a stopped one may continue or end, and no other child has
anything to report. -/
def ChildCondition.Allows : ChildCondition → WaitStatus → Prop
  | .up, .stopped _ => True
  | .stopped, .continued => True
  | .up, status => status.Death
  | .stopped, status => status.Death
  | _, _ => False

instance : ∀ (condition : ChildCondition) (status : WaitStatus), Decidable (condition.Allows status)
  | .up, .exited _ | .up, .signaled _ | .up, .stopped _ => isTrue trivial
  | .stopped, .exited _ | .stopped, .signaled _ | .stopped, .continued => isTrue trivial
  | .up, .continued | .up, .other | .stopped, .stopped _ | .stopped, .other => isFalse id
  | .unknown, _ | .gone, _ => isFalse id

theorem Host.condition_forked {host host' : Host} {pid group : Int} (h : host'.trace = .forked pid group :: host.trace) :
    host'.condition pid = .up := by
  unfold condition
  rw [h]
  simp [HostCall.condition]

/-- A poll says what it reports and nothing else. -/
theorem Host.condition_wait4 {host : Host} {event : ChildEvent} (h : host.wait4s.head = .event event) (pid : Int) :
    host.wait4.2.condition pid =
      if event.hostId.pid = pid then event.status.condition.getD (host.condition pid) else host.condition pid := by
  unfold condition wait4
  rw [h]
  simp only [List.findSome?_cons, HostCall.condition]
  by_cases heq : event.hostId.pid = pid
  · simp only [heq, if_true]
    cases event.status.condition <;> rfl
  · simp only [heq, if_false]

theorem Host.condition_wait4_nothing {host : Host} (h : ∀ event, host.wait4s.head ≠ .event event) (pid : Int) :
    host.wait4.2.condition pid = host.condition pid := by
  unfold condition wait4
  rcases Wait4Answer.silent h with hw | hw | hw <;> rw [hw]

/-! ## Calls that say nothing new -/

/-- On the way from `h` to `h'` nothing was said of any child but `fork`, and memory that does not
run out in `h` does not in `h'`. -/
structure Host.Moves (fork : Option HostPid) (h h' : Host) : Prop where
  allocs : (∀ n, h.allocs.get n = true) → ∀ n, h'.allocs.get n = true
  condition : ∀ pid, (∀ child, fork = some child → child.pid ≠ pid) → h'.condition pid = h.condition pid

namespace Host

variable {fork : Option HostPid} {h h' h'' : Host}

theorem Moves.refl (fork : Option HostPid) (h : Host) : Moves fork h h := ⟨id, fun _ _ => rfl⟩

theorem Moves.trans (a : Moves fork h h') (b : Moves fork h' h'') : Moves fork h h'' :=
  ⟨fun hn => b.allocs (a.allocs hn), fun pid hp => (b.condition pid hp).trans (a.condition pid hp)⟩

theorem moves_malloc (fork : Option HostPid) (h : Host) : Moves fork h h.malloc.2 :=
  ⟨fun hn n => hn (n + 1), fun _ _ => rfl⟩

theorem moves_fork (group : Int) (h : Host) : Moves h.forks.head h (h.fork group).2 := by
  refine ⟨?_, fun pid hp => ?_⟩
  · unfold Host.fork
    cases h.forks.head <;> exact id
  · unfold Host.fork condition
    cases hf : h.forks.head with
    | none => rfl
    | some child =>
      simp only [List.findSome?_cons, HostCall.condition, if_neg (hp child hf)]

theorem moves_kill (fork : Option HostPid) (pid : Int) (signal : Signal) (h : Host) :
    Moves fork h (h.kill pid signal).2 := ⟨id, fun _ _ => rfl⟩

theorem moves_killGroup (fork : Option HostPid) (group : Int) (signal : Signal) (h : Host) :
    Moves fork h (h.killGroup group signal).2 := ⟨id, fun _ _ => rfl⟩

theorem moves_waitpid (fork : Option HostPid) (pid : Int) (h : Host) : Moves fork h (h.waitpid pid).2 := by
  unfold waitpid
  cases h.waitpids.head <;> exact ⟨id, fun _ _ => rfl⟩

end Host

/-! ## Spawning and signalling -/

theorem executorKillAndReap_moves (fork : Option HostPid) (pid : Int) (e : Embla) :
    e.host.Moves fork (executorKillAndReap pid e).2.host := by
  have hkill := Host.moves_kill fork pid .sigkill e.host
  have hwait := hkill.trans (Host.moves_waitpid fork pid _)
  unfold executorKillAndReap
  simp only
  split
  · exact hkill
  · split <;> exact hwait

theorem executorTerminate_moves (fork : Option HostPid) (process : ProcessPtr) (e : Embla) :
    e.host.Moves fork (executorTerminate process e).2.host := by
  unfold executorTerminate
  split
  · exact .refl fork _
  · exact executorKillAndReap_moves fork _ e

theorem executorSignal_moves (fork : Option HostPid) (process : ProcessPtr) (signal : Signal) (e : Embla) :
    e.host.Moves fork (executorSignal process signal e).2.host := by
  unfold executorSignal
  simp only
  split
  · exact .refl fork _
  · split <;> exact Host.moves_kill fork _ signal e.host

theorem emblaSignalGroup_moves (fork : Option HostPid) (group : GroupPtr) (signal : Signal) (e : Embla) :
    e.host.Moves fork (emblaSignalGroup group signal e).2.host := by
  unfold emblaSignalGroup executorSignalGroup
  simp only
  split
  · exact .refl fork _
  · split <;> exact Host.moves_killGroup fork _ signal e.host

/-- A call that touches nothing but the host and forks nothing there. -/
def Embla.Signalled (e e' : Embla) : Prop := e.OnlyHost e' ∧ e.host.Moves none e'.host

theorem Embla.Signalled.refl (e : Embla) : e.Signalled e := ⟨.refl e, .refl none _⟩

theorem executorSignal_signalled (process : ProcessPtr) (signal : Signal) (e : Embla) :
    e.Signalled (executorSignal process signal e).2 :=
  ⟨executorSignal_host process signal e, executorSignal_moves none process signal e⟩

theorem executorSpawn_moves (process : ProcessPtr) (target : Int) (e : Embla) :
    e.host.Moves e.host.forks.head (executorSpawn process target e).2.host := by
  have hfork := Host.moves_fork target e.host
  unfold executorSpawn
  rcases hx : e.host.fork target with ⟨_ | pid, host⟩ <;> rw [hx] at hfork
  · exact hfork
  · simp only
    have hset : e.host.Moves e.host.forks.head host.setpgid.2 := hfork.trans ⟨id, fun _ _ => rfl⟩
    split
    · exact hset.trans (executorKillAndReap_moves _ _ { e with host := host.setpgid.2 })
    · exact hset

theorem emblaSpawnRollback_moves (fork : Option HostPid) (group : GroupPtr) (process : ProcessPtr) (processId : Nat)
    (spawned : Bool) (e : Embla) : e.host.Moves fork (emblaSpawnRollback group process processId spawned e).host := by
  unfold emblaSpawnRollback
  cases spawned with
  | false => exact .refl fork _
  | true => exact executorTerminate_moves fork process e

theorem emblaSpawnReady_moves (fork : Option HostPid) (group : GroupPtr) (process : ProcessPtr) (processId : Nat)
    (e : Embla) : e.host.Moves fork (emblaSpawnReady group process processId e).2.host := by
  unfold emblaSpawnReady
  simp only
  split
  · exact emblaSpawnRollback_moves fork group process processId true e
  split
  · exact emblaSpawnRollback_moves fork group process processId true (e.modifyProcess process _)
  · exact .refl fork _

theorem emblaSpawnHost_moves (group : GroupPtr) (process : ProcessPtr) (processId : Nat) (e : Embla) :
    e.host.Moves e.host.forks.head (emblaSpawnHost group process processId e).2.host := by
  have hspawn := executorSpawn_moves process (e.group group).hostId e
  unfold emblaSpawnHost
  simp only
  split
  · exact hspawn.trans (emblaSpawnRollback_moves _ group process processId false _)
  split
  · exact hspawn.trans (emblaSpawnReady_moves _ group process processId (Embla.modifyGroup _ group _))
  · exact hspawn.trans (emblaSpawnReady_moves _ group process processId _)

theorem emblaSpawnMember_moves (group : GroupPtr) (process : ProcessPtr) (e : Embla) :
    e.host.Moves e.host.forks.head (emblaSpawnMember group process e).2.host := by
  unfold emblaSpawnMember
  simp only
  split
  · exact emblaSpawnRollback_moves _ group process _ false e
  · exact emblaSpawnHost_moves group process _ (e.modifyGroup group _)

/-- Creating a record only allocates, so the fork to come stays the same. -/
theorem createProcess_moves (parentId groupId : Nat) (name : String) (heap : Heap Process) (manager : ProcessManager)
    (host : Host) (fork : Option HostPid) :
    host.Moves fork (processManagerCreateProcess parentId groupId name heap manager host).2.2.2 ∧
      (processManagerCreateProcess parentId groupId name heap manager host).2.2.2.forks = host.forks := by
  have hone := Host.moves_malloc fork host
  have htwo := hone.trans (Host.moves_malloc fork host.malloc.2)
  unfold processManagerCreateProcess
  simp only
  split
  · exact ⟨.refl fork host, rfl⟩
  split
  · exact ⟨.refl fork host, rfl⟩
  split
  · exact ⟨hone, rfl⟩
  split <;> exact ⟨htwo, rfl⟩

theorem createGroup_moves (heap : Heap ProcessGroup) (manager : ProcessGroupManager) (host : Host)
    (fork : Option HostPid) :
    host.Moves fork (processGroupManagerCreateGroup heap manager host).2.2.2 ∧
      (processGroupManagerCreateGroup heap manager host).2.2.2.forks = host.forks := by
  have hone := Host.moves_malloc fork host
  have htwo := hone.trans (Host.moves_malloc fork host.malloc.2)
  unfold processGroupManagerCreateGroup
  simp only
  split
  · exact ⟨.refl fork host, rfl⟩
  split
  · exact ⟨.refl fork host, rfl⟩
  split
  · exact ⟨hone, rfl⟩
  split <;> exact ⟨htwo, rfl⟩

theorem emblaSpawnInternal_moves (parentId groupId : Nat) (name : String) (e : Embla) :
    e.host.Moves e.host.forks.head (emblaSpawnInternal parentId groupId name e).2.host := by
  unfold emblaSpawnInternal
  cases processGroupManagerGet e.groupHeap e.processGroupManager groupId with
  | none => exact .refl _ _
  | some group =>
    simp only
    split
    · exact .refl _ _
    obtain ⟨hmoves, hforks⟩ :=
      createProcess_moves parentId groupId name e.processHeap e.processManager e.host e.host.forks.head
    rcases hx : processManagerCreateProcess parentId groupId name e.processHeap e.processManager e.host with
      ⟨_ | process, heap, manager, host⟩ <;> rw [hx] at hmoves hforks
    · exact hmoves
    · have hmember := emblaSpawnMember_moves group process
        { e with processHeap := heap, processManager := manager, host := host }
      simp only at hmember hforks
      rw [hforks] at hmember
      exact hmoves.trans hmember

theorem emblaSpawn_moves (name : String) (e : Embla) :
    e.host.Moves e.host.forks.head (emblaSpawn name e).2.host := by
  unfold emblaSpawn
  obtain ⟨hmoves, hforks⟩ := createGroup_moves e.groupHeap e.processGroupManager e.host e.host.forks.head
  rcases hx : processGroupManagerCreateGroup e.groupHeap e.processGroupManager e.host with
    ⟨_ | group, heap, manager, host⟩ <;> rw [hx] at hmoves hforks
  · exact hmoves
  · simp only
    generalize hid : (Embla.group { e with groupHeap := heap, processGroupManager := manager, host := host } group).id = groupId
    have hinternal := emblaSpawnInternal_moves emblaRootPid groupId name
      { e with groupHeap := heap, processGroupManager := manager, host := host }
    simp only at hinternal hforks
    rw [hforks] at hinternal
    have hall := hmoves.trans hinternal
    rcases hy : emblaSpawnInternal emblaRootPid groupId name
      { e with groupHeap := heap, processGroupManager := manager, host := host } with ⟨_ | process, e'⟩ <;>
      rw [hy] at hall
    · exact hall
    · exact hall

theorem emblaSpawnChild_moves (parent : ProcessPtr) (name : String) (e : Embla) :
    e.host.Moves e.host.forks.head (emblaSpawnChild parent name e).2.host := by
  unfold emblaSpawnChild
  simp only
  split
  · exact .refl _ _
  · exact emblaSpawnInternal_moves _ _ name e

end EmblaOs
