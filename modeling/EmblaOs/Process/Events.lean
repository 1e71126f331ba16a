/-
The two ways a child's change of state reaches the tables: `embla_handle_child_event`, called from
the run loop, and `service_registry_drain_one_event` of the supervisor (service_orchestrator.c).
Both keep the table invariant. They treat the same event alike exactly when there is nothing to
do: the pid is not tracked, or the status is none of exit, signal, stop and continue.
-/
import EmblaOs.Process.Invariant

namespace EmblaOs

open Lib

/-- `service_registry_drain_one_event` after the exit code or the signal is recorded; the result of
the transition is not looked at. -/
def drainTerminated (process : ProcessPtr) (usage : Rusage) (e : Embla) : Embla :=
  let (_, record) := processTransition (e.process process) .terminated
  e.modifyProcess process fun _ => executorApplyRusage e.host.platform record usage

/-- `service_registry_drain_one_event` once `executor_poll_any` has reported `event`. -/
def drainEvent (event : ChildEvent) (e : Embla) : Embla :=
  match processManagerGetByHostId e.processHeap e.processManager event.hostId.pid with
  | none => e
  | some process =>
    match event.status with
    | .exited code => drainTerminated process event.usage (e.modifyProcess process fun p => { p with exitCode := code })
    | .signaled signal =>
      drainTerminated process event.usage (e.modifyProcess process fun p => { p with termSignal := signal })
    | _ => e

def serviceRegistryDrainOneEvent (e : Embla) : Int × Embla :=
  let (pollResult, event, e) := executorPollAny e
  if pollResult < 0 then (-1, e)
  else
    match event with
    | none => (0, e)
    | some event => (1, drainEvent event e)

/-! ## What a drained event changes -/

/-- The record of a tracked process after its event was drained. -/
def drainRecord (platform : Platform) (event : ChildEvent) (record : Process) : Process :=
  match event.status with
  | .exited code =>
    executorApplyRusage platform (processTransition { record with exitCode := code } .terminated).2 event.usage
  | .signaled signal =>
    executorApplyRusage platform (processTransition { record with termSignal := signal } .terminated).2 event.usage
  | _ => record

def WaitStatus.Death : WaitStatus → Prop
  | .exited _ | .signaled _ => True
  | _ => False

instance : DecidablePred WaitStatus.Death
  | .exited _ => isTrue trivial
  | .signaled _ => isTrue trivial
  | .stopped _ => isFalse id
  | .continued => isFalse id
  | .other => isFalse id

theorem drainRecord_id (platform : Platform) (event : ChildEvent) (r : Process) :
    (drainRecord platform event r).id = r.id ∧ (drainRecord platform event r).groupId = r.groupId ∧
      (drainRecord platform event r).hostId = r.hostId ∧ (drainRecord platform event r).parentId = r.parentId := by
  unfold drainRecord
  split <;> simp [processTransition_eq, executorApplyRusage]

/-- A death ends every process that was started. -/
theorem drainRecord_state_death (platform : Platform) {event : ChildEvent} {r : Process}
    (hd : event.status.Death) (hr : r.state ≠ .created) :
    (drainRecord platform event r).state = .terminated := by
  have hstate : (if processCanTransition r.state .terminated = true then .terminated else r.state) =
      ProcessState.terminated := by
    rcases eq_or_ne r.state .terminated with ht | ht
    · simp [ht]
    · rw [if_pos ((canTransition_terminated r.state).2 ⟨hr, ht⟩)]
  unfold drainRecord
  cases hs : event.status with
  | exited code => simpa [processTransition_eq, executorApplyRusage] using hstate
  | signaled signal => simpa [processTransition_eq, executorApplyRusage] using hstate
  | stopped signal => rw [hs] at hd; exact hd.elim
  | continued => rw [hs] at hd; exact hd.elim
  | other => rw [hs] at hd; exact hd.elim

theorem drainRecord_alive (platform : Platform) {event : ChildEvent} (r : Process) (hd : ¬ event.status.Death) :
    drainRecord platform event r = r := by
  unfold drainRecord
  cases hs : event.status <;> simp_all [WaitStatus.Death]

theorem drainTerminated_modify (process : ProcessPtr) (usage : Rusage) (e : Embla) (f : Process → Process) :
    drainTerminated process usage (e.modifyProcess process f) = e.modifyProcess process fun r =>
      executorApplyRusage e.host.platform (processTransition (f r) .terminated).2 usage := by
  unfold drainTerminated
  simp only [Embla.process_modifyProcess_self]
  unfold Embla.modifyProcess Embla.process
  simp only [Heap.modify_modify]
  rw [e.processHeap.modify_congr]
  rfl

theorem modifyProcess_fixed (e : Embla) (p : ProcessPtr) : e.modifyProcess p (fun r => r) = e := by
  unfold Embla.modifyProcess
  rw [Heap.modify_fixed _ rfl]

theorem drainEvent_eq (event : ChildEvent) (e : Embla) :
    drainEvent event e =
      match processManagerGetByHostId e.processHeap e.processManager event.hostId.pid with
      | none => e
      | some process => e.modifyProcess process (drainRecord e.host.platform event) := by
  unfold drainEvent
  cases processManagerGetByHostId e.processHeap e.processManager event.hostId.pid with
  | none => rfl
  | some process =>
    unfold drainRecord
    cases event.status with
    | exited code => exact drainTerminated_modify ..
    | signaled signal => exact drainTerminated_modify ..
    | stopped signal => exact (modifyProcess_fixed e process).symm
    | continued => exact (modifyProcess_fixed e process).symm
    | other => exact (modifyProcess_fixed e process).symm

/-- The runtime after `executor_poll_any`. -/
def Embla.polled (e : Embla) : Embla := { e with host := e.host.wait4.2 }

theorem executorPollAny_eq (e : Embla) :
    executorPollAny e = (match e.host.wait4s.head with
      | .event event => (1, some event, e.polled)
      | .nothing => (0, none, e.polled)
      | .echild => (0, none, e.polled)
      | .error => (-1, none, e.polled)) := by
  unfold executorPollAny Embla.polled Host.wait4
  cases e.host.wait4s.head <;> rfl

/-- The next thing the host reports is the death of the tracked process `p`. -/
def Embla.DyingNext (e : Embla) (p : ProcessPtr) : Prop :=
  ∃ event, e.host.wait4s.head = .event event ∧ event.status.Death ∧
    processManagerGetByHostId e.processHeap e.processManager event.hostId.pid = some p

theorem Embla.DyingNext.unique {e : Embla} {p q : ProcessPtr} (hp : e.DyingNext p) (hq : e.DyingNext q) : p = q := by
  obtain ⟨event, h1, -, h2⟩ := hp
  obtain ⟨event', h1', -, h2'⟩ := hq
  rw [h1] at h1'
  cases h1'
  rw [h2] at h2'
  cases h2'
  rfl

theorem Embla.dyingNext_iff {e : Embla} {event : ChildEvent} (hw : e.host.wait4s.head = .event event) (p : ProcessPtr) :
    e.DyingNext p ↔ event.status.Death ∧
      processManagerGetByHostId e.processHeap e.processManager event.hostId.pid = some p := by
  constructor
  · rintro ⟨event', hw', hrest⟩
    rw [hw] at hw'
    cases hw'
    exact hrest
  · exact fun hrest => ⟨event, hw, hrest⟩

theorem Embla.not_dyingNext {e : Embla} (hw : ∀ event, e.host.wait4s.head ≠ .event event) (p : ProcessPtr) :
    ¬ e.DyingNext p := by
  rintro ⟨event, hevent, -⟩
  exact hw event hevent

/-- The whole of what a drain does to the runtime: the host moved on, and for a death of a tracked
process its record was filled in. -/
theorem serviceRegistryDrainOneEvent_cases (e : Embla) :
    ((∀ p, ¬ e.DyingNext p) ∧ (serviceRegistryDrainOneEvent e).2 = e.polled) ∨
    ∃ event p, e.DyingNext p ∧ event.status.Death ∧
      serviceRegistryDrainOneEvent e = (1, e.polled.modifyProcess p (drainRecord e.host.platform event)) := by
  unfold serviceRegistryDrainOneEvent
  rw [executorPollAny_eq]
  cases hw : e.host.wait4s.head with
  | nothing => exact .inl ⟨Embla.not_dyingNext fun event hc => (by rw [hw] at hc; cases hc), rfl⟩
  | echild => exact .inl ⟨Embla.not_dyingNext fun event hc => (by rw [hw] at hc; cases hc), rfl⟩
  | error => exact .inl ⟨Embla.not_dyingNext fun event hc => (by rw [hw] at hc; cases hc), rfl⟩
  | event event =>
    simp only
    rw [if_neg (by decide), drainEvent_eq]
    simp only [Embla.polled, Embla.dyingNext_iff hw]
    cases hget : processManagerGetByHostId e.processHeap e.processManager event.hostId.pid with
    | none =>
      refine .inl ⟨?_, rfl⟩
      rintro p ⟨-, hsome⟩
      cases hsome
    | some p =>
      simp only [Host.wait4_rest]
      by_cases hd : event.status.Death
      · exact .inr ⟨event, p, ⟨hd, rfl⟩, hd, rfl⟩
      · -- the record is written back as it was
        left
        refine ⟨fun q hq => hd hq.1, ?_⟩
        have hfix : drainRecord e.host.platform event = fun r => r :=
          funext fun r => drainRecord_alive e.host.platform r hd
        rw [hfix, modifyProcess_fixed]

theorem Embla.OnlyHost.inv {e e' : Embla} (ho : e.OnlyHost e') (h : e.Inv) : e'.Inv := by
  obtain ⟨host, rfl⟩ := ho
  exact ⟨h.table, h.groupTable, h.membersNodup, h.member, h.grouped, h.started, h.queue⟩

/-- Writing a tracked record, its ids and the fact that it was started apart, keeps the invariant. -/
theorem Embla.Inv.modifyProcess {e : Embla} (h : e.Inv) (p : ProcessPtr) {f : Process → Process}
    (hf : ∀ r, (f r).id = r.id ∧ (f r).groupId = r.groupId) (hs : ∀ r, r.state ≠ .created → (f r).state ≠ .created) :
    (e.modifyProcess p f).Inv := by
  refine h.sameTables ⟨le_refl _, rfl, ⟨le_refl _, h.table.nextHi⟩, fun q hq => ?_, le_refl _, rfl,
    ⟨le_refl _, h.groupTable.nextHi⟩, fun _ _ => ⟨rfl, rfl⟩⟩ h.queue
  rcases eq_or_ne q p with rfl | hne
  · rw [e.process_modifyProcess_self]
    exact ⟨(hf _).1, (hf _).2, hs _ (h.started q hq)⟩
  · rw [e.process_modifyProcess_of_ne _ hne]
    exact ⟨rfl, rfl, h.started q hq⟩

theorem serviceRegistryDrainOneEvent_inv {e : Embla} (h : e.Inv) : (serviceRegistryDrainOneEvent e).2.Inv := by
  have hpolled : e.polled.Inv := Embla.OnlyHost.inv ⟨_, rfl⟩ h
  rcases serviceRegistryDrainOneEvent_cases e with ⟨-, hx⟩ | ⟨event, p, -, hd, hx⟩
  · rw [hx]
    exact hpolled
  · rw [hx]
    refine hpolled.modifyProcess p (fun r => ?_) fun r hr => ?_
    · obtain ⟨h1, h2, -⟩ := drainRecord_id e.host.platform event r
      exact ⟨h1, h2⟩
    · rw [drainRecord_state_death _ hd hr]
      exact fun hc => by cases hc

/-! ## The two paths compared -/

/-- The same process table, entry by entry, and the same scheduler. -/
def Embla.SameTableAndScheduler (a b : Embla) : Prop :=
  a.processManager.processes = b.processManager.processes ∧
  (∀ p ∈ a.processManager.processes, a.process p = b.process p) ∧
  a.scheduler.current = b.scheduler.current ∧ schedulerReady a.scheduler = schedulerReady b.scheduler

/-- A death that `emblaHandleTerminated` accepts was taken out of the scheduler. -/
theorem emblaHandleTerminated_scheduler {process : ProcessPtr} {usage : Rusage} {e : Embla}
    (h : (emblaHandleTerminated process usage e).1 = 0) :
    (emblaHandleTerminated process usage e).2.scheduler = (schedulerRemove e.scheduler process).2 ∧
      (schedulerRemove e.scheduler process).1 = 0 := by
  unfold emblaHandleTerminated at h ⊢
  simp only at h ⊢
  split at h
  · cases h
  rename_i h1
  rw [if_neg h1]
  split at h
  · cases h
  rename_i h2
  rw [if_neg h2]
  split at h
  · cases h
  rename_i h3
  rw [if_neg h3]
  exact ⟨rfl, not_not.1 h3⟩

theorem drain_tracked (e : Embla) (p : ProcessPtr) : (serviceRegistryDrainOneEvent e).2.Tracked p ↔ e.Tracked p := by
  rcases serviceRegistryDrainOneEvent_cases e with ⟨-, hx⟩ | ⟨event, p, -, -, hx⟩ <;> rw [hx] <;> rfl

theorem drain_scheduler (e : Embla) : (serviceRegistryDrainOneEvent e).2.scheduler = e.scheduler := by
  rcases serviceRegistryDrainOneEvent_cases e with ⟨-, hx⟩ | ⟨event, p, -, -, hx⟩ <;> rw [hx] <;> rfl

theorem drain_clock (e : Embla) : (serviceRegistryDrainOneEvent e).2.host.clock = e.host.clock := by
  rcases serviceRegistryDrainOneEvent_cases e with ⟨-, hx⟩ | ⟨event, p, -, -, hx⟩ <;> rw [hx]
  · exact (Host.wait4_rest e.host).2.1
  · exact (Host.wait4_rest e.host).2.1

/-- A transition that goes through shows in the record. -/
theorem processTransition_changes {process : Process} {next : ProcessState}
    (h : (processTransition process next).1 = 0) : (processTransition process next).2 ≠ process := by
  have hcan := (processTransition_ret process next).1 h
  rw [processTransition_ok hcan]
  intro hc
  exact canTransition_ne hcan (congrArg Process.state hc).symm

/-- The two paths lead to the same table and scheduler exactly for the events that need no work. -/
theorem childEvent_paths_agree_iff {e : Embla} {event : ChildEvent} (hpoll : e.host.wait4s.head = .event event)
    (hret : (emblaHandleChildEvent event e.polled).1 = 0) :
    (emblaHandleChildEvent event e.polled).2.SameTableAndScheduler (serviceRegistryDrainOneEvent e).2 ↔
      (∀ p, e.Tracked p → (e.process p).hostId ≠ event.hostId.pid) ∨ event.status = .other := by
  have hpid : event.hostId.pid ≠ emblaInvalidHostPid := by
    have := event.hostId.pos
    unfold emblaInvalidHostPid
    omega
  have hdrain : serviceRegistryDrainOneEvent e = (1, drainEvent event e.polled) := by
    unfold serviceRegistryDrainOneEvent
    rw [executorPollAny_eq, hpoll]
    rfl
  rw [hdrain]
  constructor
  · intro hsame
    by_contra hno
    rw [not_or] at hno
    obtain ⟨htracked, hstatus⟩ := hno
    have hsome : processManagerGetByHostId e.polled.processHeap e.polled.processManager event.hostId.pid ≠ none :=
      fun hc => htracked ((getByHostId_none hpid).1 hc)
    obtain ⟨p, hp⟩ := Option.ne_none_iff_exists'.1 hsome
    have hin : p ∈ e.polled.processManager.processes := (getByHostId_some hp).1
    have hsched : (drainEvent event e.polled).scheduler = e.scheduler := by
      rw [drainEvent_eq, hp]
      rfl
    obtain ⟨-, hrec, hcur, hready⟩ := hsame
    rw [hsched] at hcur hready
    unfold emblaHandleChildEvent at hret hrec hcur hready
    unfold drainEvent at hrec
    rw [hp] at hret hrec hcur hready
    -- a death takes the process out of the scheduler, which the drain does not
    have hended : ∀ {e₁ : Embla}, (emblaHandleTerminated p event.usage e₁).1 = 0 →
        (emblaHandleTerminated p event.usage e₁).2.scheduler.current = e.scheduler.current →
        schedulerReady (emblaHandleTerminated p event.usage e₁).2.scheduler = schedulerReady e.scheduler →
        e₁.scheduler = e.scheduler → False := by
      intro e₁ hzero hcur hready hsame
      obtain ⟨h1, h2⟩ := emblaHandleTerminated_scheduler hzero
      rw [h1, hsame] at hcur hready
      rw [hsame] at h2
      exact schedulerRemove_changes h2 ⟨hcur, hready⟩
    -- a stop or a continue moves it, and the drain does not
    have hmoved : ∀ next, (processTransition (e.polled.process p) next).1 = 0 →
        (∀ q ∈ e.polled.processManager.processes,
          (e.polled.modifyProcess p fun _ => (processTransition (e.polled.process p) next).2).process q =
            e.polled.process q) → False := by
      intro next hzero hsame
      have hself := hsame p hin
      rw [Embla.process_modifyProcess_self] at hself
      exact processTransition_changes hzero hself
    cases hs : event.status with
    | exited code =>
      simp only [hs] at hret hcur hready
      exact hended hret hcur hready rfl
    | signaled signal =>
      simp only [hs] at hret hcur hready
      exact hended hret hcur hready rfl
    | stopped signal =>
      simp only [hs] at hret hrec
      exact hmoved .stopped hret hrec
    | continued =>
      simp only [hs] at hret hrec
      exact hmoved .running hret hrec
    | other => exact hstatus hs
  · intro hcond
    suffices hx : (emblaHandleChildEvent event e.polled).2 = drainEvent event e.polled by
      rw [hx]
      exact ⟨rfl, fun _ _ => rfl, rfl, rfl⟩
    unfold emblaHandleChildEvent drainEvent
    rcases hcond with hnone | hother
    · have hn : processManagerGetByHostId e.polled.processHeap e.polled.processManager event.hostId.pid = none :=
        (getByHostId_none hpid).2 hnone
      rw [hn]
    · rw [hother]
      cases processManagerGetByHostId e.polled.processHeap e.polled.processManager event.hostId.pid <;> rfl

/-- The exit of the child with pid `n + 1`. -/
def exitOf (n : Nat) (code : Int) : ChildEvent := ⟨⟨n + 1, HostPid.succ_pos n⟩, .exited code, ⟨⟨0, 0⟩, ⟨0, 0⟩, 0⟩⟩

/-- One spawned process whose exit is the next thing the host reports. -/
def oneExiting : Embla := (emblaSpawn "worker" (emblaCreate (.generous [.event (exitOf 0 0)] [] 0))).2

/-- The run loop takes the process out of the ready queue, the drain leaves it in. -/
theorem childEvent_paths_disagree_on_exit :
    oneExiting.host.wait4s.head = .event (exitOf 0 0) ∧
    (emblaHandleChildEvent (exitOf 0 0) oneExiting.polled).1 = 0 ∧
    ¬ (emblaHandleChildEvent (exitOf 0 0) oneExiting.polled).2.SameTableAndScheduler
      (serviceRegistryDrainOneEvent oneExiting).2 :=
  ⟨by decide +kernel, by decide +kernel, fun h => absurd h.2.2.2 (by decide +kernel)⟩

/-- The same process and the exit of a child that was never tracked. -/
def oneBesideOrphan : Embla := (emblaSpawn "worker" (emblaCreate (.generous [.event (exitOf 8 0)] [] 0))).2

theorem childEvent_paths_agree_on_orphan :
    (emblaHandleChildEvent (exitOf 8 0) oneBesideOrphan.polled).2.SameTableAndScheduler
      (serviceRegistryDrainOneEvent oneBesideOrphan).2 :=
  (childEvent_paths_agree_iff (by decide +kernel) (by decide +kernel)).2
    (.inl (by unfold Embla.Tracked; decide +kernel))

end EmblaOs
