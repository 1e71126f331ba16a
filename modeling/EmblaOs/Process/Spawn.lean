/-
What a spawn does to the runtime. `emblaSpawnInternal` succeeds exactly when the group has room,
the table has a slot and an id, the two allocations, fork and setpgid succeed and the ready queue
is not full; then it appends one process to the table, to the group and to the ready queue. When
it fails, at whichever point, the rollback leaves table, members and queue as they were.
-/
import EmblaOs.Process.Runtime

namespace EmblaOs

open Lib

/-! ## Calls that change nothing but the host -/

/-- `e'` is `e` above another host. -/
def Embla.OnlyHost (e e' : Embla) : Prop := ∃ host, e' = { e with host := host }

theorem Embla.OnlyHost.refl (e : Embla) : e.OnlyHost e := ⟨e.host, rfl⟩

theorem executorKillAndReap_host (pid : Int) (e : Embla) : e.OnlyHost (executorKillAndReap pid e).2 := by
  unfold executorKillAndReap Host.kill Host.waitpid
  simp only
  split
  · exact ⟨_, rfl⟩
  · split <;> split <;> exact ⟨_, rfl⟩

theorem executorTerminate_host (process : ProcessPtr) (e : Embla) :
    e.OnlyHost (executorTerminate process e).2 := by
  unfold executorTerminate
  split
  · exact .refl e
  · exact executorKillAndReap_host _ e

theorem executorSignal_host (process : ProcessPtr) (signal : Signal) (e : Embla) :
    e.OnlyHost (executorSignal process signal e).2 := by
  unfold executorSignal Host.kill
  split
  · exact .refl e
  · simp only
    split <;> exact ⟨_, rfl⟩

theorem executorSignalGroup_host (hostGroupId : Int) (signal : Signal) (e : Embla) :
    e.OnlyHost (executorSignalGroup hostGroupId signal e).2 := by
  unfold executorSignalGroup Host.killGroup
  split
  · exact .refl e
  · simp only
    split <;> exact ⟨_, rfl⟩

theorem emblaTerminate_host (process : ProcessPtr) (e : Embla) : e.OnlyHost (emblaTerminate process e).2 := by
  unfold emblaTerminate
  split
  · exact .refl e
  · exact executorSignal_host ..

theorem emblaStopProcess_host (process : ProcessPtr) (e : Embla) :
    e.OnlyHost (emblaStopProcess process e).2 := by
  unfold emblaStopProcess
  split
  · exact .refl e
  · exact executorSignal_host ..

theorem emblaContinueProcess_host (process : ProcessPtr) (e : Embla) :
    e.OnlyHost (emblaContinueProcess process e).2 := by
  unfold emblaContinueProcess
  split
  · exact .refl e
  · exact executorSignal_host ..

theorem emblaKill_host (process : ProcessPtr) (e : Embla) : e.OnlyHost (emblaKill process e).2 := by
  unfold emblaKill
  split
  · exact .refl e
  · exact executorSignal_host ..

theorem emblaSignalGroup_host (group : GroupPtr) (signal : Signal) (e : Embla) :
    e.OnlyHost (emblaSignalGroup group signal e).2 := by
  unfold emblaSignalGroup
  split
  · exact .refl e
  · exact executorSignalGroup_host ..

/-! ## Fork -/

/-- Fork and the parent's setpgid go through. -/
def Host.ForkRoom (host : Host) : Prop := host.forks.head.isSome ∧ host.setpgids.head ≠ .error

theorem executorSpawn_ok {e : Embla} {pid : HostPid} (hf : e.host.forks.head = some pid)
    (hs : e.host.setpgids.head ≠ .error) (process : ProcessPtr) (target : Int) :
    executorSpawn process target e =
      (0, { e with
        processHeap := e.processHeap.modify process fun p => { p with hostId := pid.pid }
        host := { e.host with
          forks := e.host.forks.tail
          setpgids := e.host.setpgids.tail
          trace := .forked pid.pid target :: e.host.trace } }) := by
  unfold executorSpawn Host.fork Host.setpgid
  simp only [hf, if_neg hs]
  rfl

theorem executorSpawn_failed {e : Embla} (h : ¬ e.host.ForkRoom) (process : ProcessPtr) (target : Int) :
    ∃ host, executorSpawn process target e = (-1, { e with host := host }) := by
  unfold executorSpawn Host.fork
  cases hf : e.host.forks.head with
  | none => exact ⟨_, rfl⟩
  | some pid =>
    have hs : e.host.setpgids.head = .error := by
      by_contra hne
      exact h ⟨by simp [hf], hne⟩
    simp only [Host.setpgid, hs, if_true]
    obtain ⟨host, hk⟩ := executorKillAndReap_host pid.pid { e with host := { e.host with
      forks := e.host.forks.tail
      setpgids := e.host.setpgids.tail
      trace := .forked pid.pid target :: e.host.trace } }
    exact ⟨host, by rw [hk]⟩

/-! ## Rollback -/

/-- On the way from `e` to `e'` only the record of `p` (its id apart), the host and the host id of
a group `g` that had none changed. -/
structure Touched (g : GroupPtr) (p : ProcessPtr) (e e' : Embla) : Prop where
  next : e'.processHeap.next = e.processHeap.next
  others : ∀ q, q ≠ p → e'.process q = e.process q
  id : (e'.process p).id = (e.process p).id
  groupNext : e'.groupHeap.next = e.groupHeap.next
  groups : ∀ g', g' ≠ g → e'.group g' = e.group g'
  group : ∃ hostId, e'.group g = processGroupSetHostId (e.group g) hostId ∧
    ((e.group g).hostId ≠ emblaInvalidHostPgid → hostId = (e.group g).hostId)
  manager : e'.processManager = e.processManager
  groupManager : e'.processGroupManager = e.processGroupManager
  scheduler : e'.scheduler = e.scheduler
  state : e'.state = e.state

theorem Touched.trans {g : GroupPtr} {p : ProcessPtr} {a b c : Embla} (h : Touched g p a b)
    (h' : Touched g p b c) : Touched g p a c := by
  refine ⟨h'.next.trans h.next, fun q hq => (h'.others q hq).trans (h.others q hq), h'.id.trans h.id,
    h'.groupNext.trans h.groupNext, fun g' hg => (h'.groups g' hg).trans (h.groups g' hg), ?_,
    h'.manager.trans h.manager, h'.groupManager.trans h.groupManager, h'.scheduler.trans h.scheduler,
    h'.state.trans h.state⟩
  obtain ⟨i, hi, hk⟩ := h.group
  obtain ⟨j, hj, hl⟩ := h'.group
  refine ⟨j, by rw [hj, hi]; rfl, fun hne => ?_⟩
  have hi' : (b.group g).hostId = (a.group g).hostId := by rw [hi]; exact hk hne
  rw [hl (by rw [hi']; exact hne), hi']

theorem Embla.OnlyHost.touched {e e' : Embla} (h : e.OnlyHost e') (g : GroupPtr) (p : ProcessPtr) :
    Touched g p e e' := by
  obtain ⟨host, rfl⟩ := h
  exact ⟨rfl, fun _ _ => rfl, rfl, rfl, fun _ _ => rfl, ⟨_, rfl, fun _ => rfl⟩, rfl, rfl, rfl, rfl⟩

theorem touched_modifyProcess (g : GroupPtr) (p : ProcessPtr) (e : Embla) {f : Process → Process}
    (hf : ∀ r, (f r).id = r.id) : Touched g p e (e.modifyProcess p f) := by
  refine ⟨rfl, fun q hq => Heap.read_modify_of_ne _ _ hq, ?_, rfl, fun _ _ => rfl, ⟨_, rfl, fun _ => rfl⟩,
    rfl, rfl, rfl, rfl⟩
  exact Heap.field_modify _ _ _ _ Process.id (hf _)

theorem touched_hostId {g : GroupPtr} {e : Embla} (h : (e.group g).hostId = emblaInvalidHostPgid)
    (p : ProcessPtr) (hostId : Int) :
    Touched g p e (e.modifyGroup g fun G => processGroupSetHostId G hostId) := by
  refine ⟨rfl, fun _ _ => rfl, rfl, rfl, fun g' hg => e.group_modifyGroup_of_ne _ hg,
    ⟨hostId, e.group_modifyGroup_self _ _, fun hne => absurd h hne⟩, rfl, rfl, rfl, rfl⟩

/-- A spawn that is taken back: the record of `p` is no longer reachable, and apart from it `e'`
differs from `e` in the table and members being `ps` and `ms` again, in the iteration cursor, in
the host and in the host id of a group that had none. -/
structure Undone (g : GroupPtr) (p : ProcessPtr) (ps ms : List ProcessPtr) (e e' : Embla) : Prop where
  next : e'.processHeap.next = e.processHeap.next
  others : ∀ q, q ≠ p → e'.process q = e.process q
  groupNext : e'.groupHeap.next = e.groupHeap.next
  groups : ∀ g', g' ≠ g → e'.group g' = e.group g'
  group : ∃ hostId, e'.group g = (processGroupSetHostId (e.group g) hostId).withMembers ms ∧
    ((e.group g).hostId ≠ emblaInvalidHostPgid → hostId = (e.group g).hostId)
  processes : e'.processManager.processes = ps
  nextPid : e'.processManager.nextPid = e.processManager.nextPid
  groupManager : e'.processGroupManager = e.processGroupManager
  scheduler : e'.scheduler = e.scheduler
  state : e'.state = e.state

/-- The rollback takes back the slot appended last and the membership, if there is one. -/
theorem emblaSpawnRollback_undone {e e1 : Embla} {g : GroupPtr} {p : ProcessPtr} {ps ms : List ProcessPtr}
    (ht : TableInv e.processHeap e.processManager) (h : Touched g p e e1)
    (hps : e.processManager.processes = ps ++ [p])
    (hms : (e.group g).processes = ms ++ [p] ∨ (e.group g).processes = ms) (hp : p ∉ ms) (spawned : Bool) :
    Undone g p ps ms e (emblaSpawnRollback g p (e.process p).id spawned e1) := by
  have hterm : Touched g p e (if spawned = true then (executorTerminate p e1).2 else e1) := by
    split
    · exact h.trans ((executorTerminate_host p e1).touched g p)
    · exact h
  unfold emblaSpawnRollback
  generalize (if spawned = true then (executorTerminate p e1).2 else e1) = e2 at hterm
  obtain ⟨hostId, hg, hkeep⟩ := hterm.group
  have hids : ∀ q ∈ e2.processManager.processes, (e2.processHeap.read q).id = (e.processHeap.read q).id := by
    intro q _
    by_cases hq : q = p
    · subst hq; exact hterm.id
    · exact congrArg Process.id (hterm.others q hq)
  have ht2 : TableInv e2.processHeap e2.processManager := by
    rw [hterm.manager] at hids ⊢
    exact ht.of_ids (le_of_eq hterm.next.symm) hids
  -- the process was made a member last, or not at all
  have hrem : (processGroupRemove (e2.group g) p).2 = (processGroupSetHostId (e.group g) hostId).withMembers ms := by
    have hmem : (e2.group g).processes = (e.group g).processes := by rw [hg]; rfl
    rcases hms with hms | hms
    · have hlast := processGroupRemove_last (processGroupSetHostId (e.group g) hostId) hp
      rw [← hms] at hlast
      rw [hg]
      exact congrArg Prod.snd hlast
    · rw [processGroupRemove_absent (by rw [hmem, hms]; exact hp), hg, ← hms]
      rfl
  have hdest : processManagerDestroyProcess e2.processHeap e2.processManager (e.process p).id =
      (0, { e2.processManager with processes := ps, iteratorIndex := 0 }) := by
    rw [← hterm.id]
    exact ht2.destroy_last (by rw [hterm.manager]; exact hps)
  simp only [Embla.modifyGroup, hdest]
  refine ⟨hterm.next, hterm.others, hterm.groupNext, fun g' hg' => ?_, ⟨hostId, ?_, hkeep⟩, rfl, ?_,
    hterm.groupManager, hterm.scheduler, hterm.state⟩
  · rw [← hterm.groups g' hg']
    exact e2.group_modifyGroup_of_ne _ hg'
  · rw [← hrem]
    exact e2.group_modifyGroup_self _ _
  · simp only [hterm.manager]

/-! ## The second half -/

theorem emblaSpawnReady_ok {e : Embla} {p : ProcessPtr} (hnew : (e.process p).state = .created)
    (hq : e.scheduler.count < schedulerInitialCapacity) (g : GroupPtr) (id : Nat) :
    emblaSpawnReady g p id e = (some p, { e with
      processHeap := e.processHeap.modify p fun r => { r with state := .ready }
      scheduler := (schedulerAdd e.scheduler p).2 }) := by
  have hcan : processCanTransition (e.process p).state .ready = true := by rw [hnew]; rfl
  have hadd : (schedulerAdd e.scheduler p).1 = 0 := by
    unfold schedulerAdd
    rw [if_neg (by omega)]
  unfold emblaSpawnReady
  rw [processTransition_ok hcan]
  simp only [ne_eq, not_true_eq_false, if_false, Embla.modifyProcess, hadd]
  congr 2

/-- With a full ready queue the rollback runs, the process being marked ready already. -/
theorem emblaSpawnReady_full {e : Embla} {p : ProcessPtr} (hnew : (e.process p).state = .created)
    (hq : schedulerInitialCapacity ≤ e.scheduler.count) (g : GroupPtr) (id : Nat) :
    emblaSpawnReady g p id e =
      (none, emblaSpawnRollback g p id true (e.modifyProcess p fun r => { r with state := .ready })) := by
  have hcan : processCanTransition (e.process p).state .ready = true := by rw [hnew]; rfl
  have hadd : (schedulerAdd e.scheduler p).1 = -1 := by
    unfold schedulerAdd
    rw [if_pos hq]
  unfold emblaSpawnReady
  rw [processTransition_ok hcan]
  simp only [ne_eq, not_true_eq_false, if_false, Embla.modifyProcess, hadd]
  rfl

/-- A successful second half: the record has its host pid and is ready, a group without a host id
takes the leader's, the ready queue ends with the process. -/
theorem emblaSpawnHost_ok {e : Embla} {p : ProcessPtr} {pid : HostPid} (hf : e.host.forks.head = some pid)
    (hs : e.host.setpgids.head ≠ .error) (hnew : (e.process p).state = .created)
    (hq : e.scheduler.count < schedulerInitialCapacity) (g : GroupPtr) (id : Nat) :
    emblaSpawnHost g p id e = (some p, { e with
      processHeap := e.processHeap.modify p fun r => { r with hostId := pid.pid, state := .ready }
      groupHeap := e.groupHeap.modify g fun G =>
        processGroupSetHostId G (if G.hostId = emblaInvalidHostPgid then pid.pid else G.hostId)
      scheduler := (schedulerAdd e.scheduler p).2
      host := { e.host with
        forks := e.host.forks.tail
        setpgids := e.host.setpgids.tail
        trace := .forked pid.pid (e.group g).hostId :: e.host.trace } }) := by
  unfold emblaSpawnHost
  simp only [executorSpawn_ok hf hs, ne_eq, not_true_eq_false, if_false]
  split
  · rename_i hinv
    rw [emblaSpawnReady_ok]
    · simp only [Embla.modifyGroup, Embla.process, Heap.read_modify_self, Heap.modify_modify]
      rw [e.groupHeap.modify_congr (g := fun G => processGroupSetHostId G
        (if G.hostId = emblaInvalidHostPgid then pid.pid else G.hostId))]
      exact congrArg (processGroupSetHostId _) (if_pos hinv).symm
    · simpa [Embla.process, Embla.modifyGroup] using hnew
    · exact hq
  · rename_i hne
    rw [emblaSpawnReady_ok]
    · rw [e.groupHeap.modify_fixed (f := fun G => processGroupSetHostId G
        (if G.hostId = emblaInvalidHostPgid then pid.pid else G.hostId))]
      · simp
      · exact congrArg (processGroupSetHostId _) (if_neg hne)
    · simpa [Embla.process] using hnew
    · exact hq

/-- A failed second half is undone. -/
theorem emblaSpawnHost_undone {e : Embla} (ht : TableInv e.processHeap e.processManager) {g : GroupPtr}
    {p : ProcessPtr} {ps ms : List ProcessPtr} (hps : e.processManager.processes = ps ++ [p])
    (hms : (e.group g).processes = ms ++ [p]) (hp : p ∉ ms) (hnew : (e.process p).state = .created)
    (hno : ¬ (e.host.ForkRoom ∧ e.scheduler.count < schedulerInitialCapacity)) :
    ∃ e', emblaSpawnHost g p (e.process p).id e = (none, e') ∧ Undone g p ps ms e e' := by
  by_cases hroom : e.host.ForkRoom
  · -- the child is there and the ready queue is full
    have hfull : schedulerInitialCapacity ≤ e.scheduler.count := by
      by_contra hlt
      exact hno ⟨hroom, by omega⟩
    obtain ⟨hf, hs⟩ := hroom
    obtain ⟨pid, hf⟩ := Option.isSome_iff_exists.1 hf
    unfold emblaSpawnHost
    have hx := executorSpawn_ok hf hs p (e.group g).hostId
    have htouch : Touched g p e (executorSpawn p (e.group g).hostId e).2 := by
      rw [hx]
      have h1 := touched_modifyProcess g p e (f := fun r => { r with hostId := pid.pid }) fun _ => rfl
      exact h1.trans (Embla.OnlyHost.touched ⟨_, rfl⟩ g p)
    have hnew1 : ((executorSpawn p (e.group g).hostId e).2.process p).state = .created := by
      rw [hx]
      simpa [Embla.process] using hnew
    have hgrp1 : ((executorSpawn p (e.group g).hostId e).2.group g).hostId = (e.group g).hostId := by
      rw [hx]; rfl
    have hret : (executorSpawn p (e.group g).hostId e).1 = 0 := by rw [hx]
    simp only [hret, ne_eq, not_true_eq_false, if_false]
    have hready : ∀ e2, Touched g p e e2 → (e2.process p).state = .created →
        ∃ e', emblaSpawnReady g p (e.process p).id e2 = (none, e') ∧ Undone g p ps ms e e' := by
      intro e2 h2 hnew2
      rw [emblaSpawnReady_full hnew2 (by rw [h2.scheduler]; exact hfull)]
      exact ⟨_, rfl, emblaSpawnRollback_undone ht
        (h2.trans (touched_modifyProcess g p e2 (f := fun r => { r with state := .ready }) fun _ => rfl))
        hps (.inl hms) hp true⟩
    split
    · rename_i hinv
      exact hready _ (htouch.trans (touched_hostId (hgrp1.trans hinv) p _)) hnew1
    · exact hready _ htouch hnew1
  · obtain ⟨host, hx⟩ := executorSpawn_failed hroom p (e.group g).hostId
    unfold emblaSpawnHost
    simp only [hx, ne_eq]
    refine ⟨_, rfl, emblaSpawnRollback_undone ht (Embla.OnlyHost.touched ⟨host, rfl⟩ g p) hps (.inl hms) hp false⟩

/-! ## From the record to the ready queue -/

/-- The record `p` of the table becomes a ready member of `g` at the end of the ready queue. -/
structure Enrolled (g : GroupPtr) (p : ProcessPtr) (e e' : Embla) : Prop where
  next : e'.processHeap.next = e.processHeap.next
  others : ∀ q, q ≠ p → e'.process q = e.process q
  record : ∃ pid, e.host.forks.head = some pid ∧
    e'.process p = { e.process p with hostId := pid.pid, state := .ready } ∧
    (∃ hostId, hostId ≠ emblaInvalidHostPgid ∧ e'.group g =
      (processGroupSetHostId (e.group g) hostId).withMembers ((e.group g).processes ++ [p])) ∧
    e'.host.trace = .forked pid.pid (e.group g).hostId :: e.host.trace
  manager : e'.processManager = e.processManager
  groupNext : e'.groupHeap.next = e.groupHeap.next
  groups : ∀ g', g' ≠ g → e'.group g' = e.group g'
  groupManager : e'.processGroupManager = e.processGroupManager
  scheduler : e'.scheduler = (schedulerAdd e.scheduler p).2
  state : e'.state = e.state
  clock : e'.host.clock = e.host.clock
  wait4s : e'.host.wait4s = e.host.wait4s
  platform : e'.host.platform = e.host.platform

theorem emblaSpawnMember_ok {e : Embla} {g : GroupPtr} {p : ProcessPtr}
    (hmem : (e.group g).processes.length < processGroupInitialCapacity)
    (hid : (e.process p).groupId = (e.group g).id) (hnot : p ∉ (e.group g).processes)
    (hnew : (e.process p).state = .created) (hfork : e.host.ForkRoom)
    (hq : e.scheduler.count < schedulerInitialCapacity) :
    ∃ e', emblaSpawnMember g p e = (some p, e') ∧ Enrolled g p e e' := by
  obtain ⟨hf, hs⟩ := hfork
  obtain ⟨pid, hf⟩ := Option.isSome_iff_exists.1 hf
  unfold emblaSpawnMember
  simp only [processGroupAdd_ok hmem hid hnot, ne_eq, not_true_eq_false, if_false]
  have hhost := emblaSpawnHost_ok (e := e.modifyGroup g fun _ => (e.group g).withMembers ((e.group g).processes ++ [p]))
    hf hs hnew hq g (e.process p).id
  rw [hhost]
  refine ⟨_, rfl, rfl, fun q hq => ?_, ⟨pid, hf, ?_, ?_, ?_⟩, rfl, rfl, fun g' hg => ?_, rfl, rfl, rfl, rfl, rfl, rfl⟩
  · simp only [Embla.process, Embla.modifyGroup]
    exact Heap.read_modify_of_ne _ _ hq
  · simp only [Embla.process, Embla.modifyGroup]
    exact Heap.read_modify_self _ _ _
  · refine ⟨if (e.group g).hostId = emblaInvalidHostPgid then pid.pid else (e.group g).hostId, ?_, ?_⟩
    · have hpos := pid.pos
      split
      · simp only [emblaInvalidHostPgid]
        omega
      · assumption
    · simp only [Embla.group, Embla.modifyGroup, Heap.read_modify_self]
      rfl
  · rw [e.group_modifyGroup_self]
    rfl
  · simp only [Embla.group, Embla.modifyGroup, Heap.read_modify_of_ne _ _ hg]

theorem emblaSpawnMember_undone {e : Embla} (ht : TableInv e.processHeap e.processManager) {g : GroupPtr}
    {p : ProcessPtr} {ps : List ProcessPtr} (hps : e.processManager.processes = ps ++ [p])
    (hid : (e.process p).groupId = (e.group g).id) (hnot : p ∉ (e.group g).processes)
    (hnew : (e.process p).state = .created)
    (hno : ¬ ((e.group g).processes.length < processGroupInitialCapacity ∧ e.host.ForkRoom ∧
      e.scheduler.count < schedulerInitialCapacity)) :
    ∃ e', emblaSpawnMember g p e = (none, e') ∧ Undone g p ps (e.group g).processes e e' := by
  unfold emblaSpawnMember
  by_cases hmem : (e.group g).processes.length < processGroupInitialCapacity
  · simp only [processGroupAdd_ok hmem hid hnot, ne_eq, not_true_eq_false, if_false]
    have hself := e.group_modifyGroup_self g fun _ => (e.group g).withMembers ((e.group g).processes ++ [p])
    have hother : ∀ g', g' ≠ g → (e.modifyGroup g fun _ => (e.group g).withMembers
        ((e.group g).processes ++ [p])).group g' = e.group g' := fun g' => e.group_modifyGroup_of_ne _
    obtain ⟨e', hx, hu⟩ := emblaSpawnHost_undone
      (e := e.modifyGroup g fun _ => (e.group g).withMembers ((e.group g).processes ++ [p])) ht hps
      (by rw [hself]; rfl) hnot hnew fun h => hno ⟨hmem, h⟩
    refine ⟨e', hx, hu.next, hu.others, hu.groupNext, fun g' hg => (hu.groups g' hg).trans (hother g' hg), ?_,
      hu.processes, hu.nextPid, hu.groupManager, hu.scheduler, hu.state⟩
    obtain ⟨hostId, h1, h2⟩ := hu.group
    rw [hself] at h1 h2
    exact ⟨hostId, h1, h2⟩
  · simp only [processGroupAdd_full (Nat.le_of_not_lt hmem)]
    refine ⟨_, rfl, ?_⟩
    exact emblaSpawnRollback_undone ht ((Embla.OnlyHost.refl e).touched g p) hps (.inr rfl) hnot false

/-! ## The internal spawn -/

/-- The member cap is reached. -/
def ProcessGroup.CapReached (group : ProcessGroup) : Prop :=
  group.hasMaxMembers = true ∧ group.processes.length ≥ group.maxMembers

/-- Everything a spawn into group `g` needs. -/
structure Embla.Room (e : Embla) (g : GroupPtr) : Prop where
  cap : ¬ (e.group g).CapReached
  members : (e.group g).processes.length < processGroupInitialCapacity
  table : e.processManager.Room e.host
  fork : e.host.ForkRoom
  queue : e.scheduler.count < schedulerInitialCapacity

/-- One more process: its record, its slot, its membership and its place in the ready queue. -/
structure Spawned (parentId : Nat) (name : String) (g : GroupPtr) (e e' : Embla) : Prop where
  next : e'.processHeap.next = e.processHeap.next + 1
  others : ∀ q, q ≠ e.processHeap.next → e'.process q = e.process q
  record : ∃ pid, e.host.forks.head = some pid ∧
    e'.process e.processHeap.next =
      { processCreate e.processManager.nextPid parentId (e.group g).id name with
        hostId := pid.pid, state := .ready } ∧
    (∃ hostId, hostId ≠ emblaInvalidHostPgid ∧ e'.group g =
      (processGroupSetHostId (e.group g) hostId).withMembers ((e.group g).processes ++ [e.processHeap.next])) ∧
    e'.host.trace = .forked pid.pid (e.group g).hostId :: e.host.trace
  manager : e'.processManager = { e.processManager with
    processes := e.processManager.processes ++ [e.processHeap.next]
    nextPid := e.processManager.nextPid + 1 }
  groupNext : e'.groupHeap.next = e.groupHeap.next
  groups : ∀ g', g' ≠ g → e'.group g' = e.group g'
  groupManager : e'.processGroupManager = e.processGroupManager
  scheduler : e'.scheduler = (schedulerAdd e.scheduler e.processHeap.next).2
  state : e'.state = e.state
  clock : e'.host.clock = e.host.clock
  wait4s : e'.host.wait4s = e.host.wait4s
  platform : e'.host.platform = e.host.platform

/-- No more processes: the tables are as before, and at most the id counter, the cursor, the host
and the host id of a group without one differ. -/
structure Unspawned (g : GroupPtr) (e e' : Embla) : Prop where
  next : e.processHeap.next ≤ e'.processHeap.next
  others : ∀ q < e.processHeap.next, e'.process q = e.process q
  groupNext : e'.groupHeap.next = e.groupHeap.next
  groups : ∀ g', g' ≠ g → e'.group g' = e.group g'
  group : ∃ hostId, e'.group g = processGroupSetHostId (e.group g) hostId ∧
    ((e.group g).hostId ≠ emblaInvalidHostPgid → hostId = (e.group g).hostId)
  processes : e'.processManager.processes = e.processManager.processes
  nextPid : e.processManager.nextPid ≤ e'.processManager.nextPid ∧
    (e.processManager.nextPid ≤ uint32Max → e'.processManager.nextPid ≤ uint32Max)
  groupManager : e'.processGroupManager = e.processGroupManager
  scheduler : e'.scheduler = e.scheduler
  state : e'.state = e.state

theorem Unspawned.onlyHost {e e' : Embla} (h : e.OnlyHost e') (g : GroupPtr) : Unspawned g e e' := by
  obtain ⟨host, rfl⟩ := h
  exact ⟨le_refl _, fun _ _ => rfl, rfl, fun _ _ => rfl, ⟨_, rfl, fun _ => rfl⟩, rfl, ⟨le_refl _, id⟩, rfl, rfl, rfl⟩

section Internal

variable {e : Embla} {g : GroupPtr} {groupId : Nat}
  (hget : processGroupManagerGet e.groupHeap e.processGroupManager groupId = some g)
  (hid : (e.group g).id = groupId) (hold : ∀ q ∈ (e.group g).processes, q < e.processHeap.next)

include hget hid hold

theorem emblaSpawnInternal_ok (hroom : e.Room g) (parentId : Nat) (name : String) :
    ∃ e', emblaSpawnInternal parentId groupId name e = (some e.processHeap.next, e') ∧
      Spawned parentId name g e e' := by
  unfold emblaSpawnInternal
  rw [hget]
  have hcap := hroom.cap
  unfold ProcessGroup.CapReached at hcap
  simp only [if_neg hcap, createProcess_ok hroom.table]
  subst hid
  have hnot : e.processHeap.next ∉ (e.group g).processes := fun h => absurd (hold _ h) (lt_irrefl _)
  obtain ⟨e', hx, hen⟩ := emblaSpawnMember_ok (g := g) (p := e.processHeap.next) (e := { e with
      processHeap := (e.processHeap.alloc
        (processCreate e.processManager.nextPid parentId (e.group g).id name)).2
      processManager := { e.processManager with
        processes := e.processManager.processes ++ [e.processHeap.next]
        nextPid := e.processManager.nextPid + 1 }
      host := { e.host with allocs := e.host.allocs.tail.tail } })
    hroom.members (by simp [Embla.process, Embla.group, processCreate]) hnot
    (by simp [Embla.process, processCreate]) hroom.fork hroom.queue
  refine ⟨e', hx, hen.next, fun q hq => ?_, ?_, hen.manager, hen.groupNext, hen.groups, hen.groupManager,
    hen.scheduler, hen.state, hen.clock, hen.wait4s, hen.platform⟩
  · rw [hen.others q hq]
    exact Heap.read_alloc_of_ne _ _ hq
  · obtain ⟨pid, h1, h2, h3, h4⟩ := hen.record
    refine ⟨pid, h1, ?_, h3, h4⟩
    rw [h2]
    simp [Embla.process]

/-- Without room the call returns NULL and leaves everything tracked as it was. -/
theorem emblaSpawnInternal_failed (ht : TableInv e.processHeap e.processManager) (hroom : ¬ e.Room g)
    (parentId : Nat) (name : String) :
    ∃ e', emblaSpawnInternal parentId groupId name e = (none, e') ∧ Unspawned g e e' := by
  unfold emblaSpawnInternal
  rw [hget]
  by_cases hcap : (e.group g).hasMaxMembers = true ∧ (e.group g).processes.length ≥ (e.group g).maxMembers
  · simp only [if_pos hcap]
    exact ⟨e, rfl, .onlyHost (.refl e) g⟩
  simp only [if_neg hcap]
  by_cases htable : e.processManager.Room e.host
  · subst hid
    simp only [createProcess_ok htable]
    -- the second half fails and is undone, down to the process the first half appended
    have hnot : e.processHeap.next ∉ (e.group g).processes := fun h => absurd (hold _ h) (lt_irrefl _)
    have ht' := ht.append htable.1 htable.2.1 parentId (e.group g).id name
    obtain ⟨e', hx, hu⟩ := emblaSpawnMember_undone (g := g) (p := e.processHeap.next)
      (e := { e with
        processHeap := (e.processHeap.alloc
          (processCreate e.processManager.nextPid parentId (e.group g).id name)).2
        processManager := { e.processManager with
          processes := e.processManager.processes ++ [e.processHeap.next]
          nextPid := e.processManager.nextPid + 1 }
        host := { e.host with allocs := e.host.allocs.tail.tail } }) ht' rfl
      (by simp [Embla.process, Embla.group, processCreate]) hnot (by simp [Embla.process, processCreate])
      fun h => hroom ⟨hcap, h.1, htable, h.2.1, h.2.2⟩
    have hnext := hu.next
    have hpid := hu.nextPid
    simp only [Heap.next_alloc] at hnext
    simp only at hpid
    refine ⟨e', hx, by omega, fun q hq => ?_, hu.groupNext, hu.groups, ?_, hu.processes, ?_, hu.groupManager,
      hu.scheduler, hu.state⟩
    · rw [hu.others q (by lia)]
      exact Heap.read_alloc_of_lt _ _ hq
    · obtain ⟨hostId, h1, h2⟩ := hu.group
      exact ⟨hostId, h1, h2⟩
    · have := ht'.nextHi
      simp only at this
      rw [hpid]
      omega
  · obtain ⟨nextPid, allocs, hx, h1, h2⟩ := createProcess_none htable parentId groupId name e.processHeap
    simp only [hx]
    exact ⟨_, rfl, le_refl _, fun _ _ => rfl, rfl, fun _ _ => rfl, ⟨_, rfl, fun _ => rfl⟩, rfl, ⟨h1, h2⟩, rfl, rfl, rfl⟩

end Internal

end EmblaOs
