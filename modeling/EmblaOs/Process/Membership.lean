/-
Who is in which group. In every state of a run each tracked process is in exactly one group of the
table, the one its record names, and no group is empty, without a host id or over its size. A step
can add one member to a group with room, take one out, or make a group of one; everything about the
sizes follows from that.
-/
import EmblaOs.Process.Steps

namespace EmblaOs

open Lib

/-- What a group of the table looks like between two operations. -/
structure ProcessGroup.Formed (group : ProcessGroup) : Prop where
  nonempty : group.processes ≠ []
  hostId : group.hostId ≠ emblaInvalidHostPgid
  size : group.processes.length ≤ processGroupInitialCapacity

namespace Embla

/-- The invariant of the tables, every group formed, and a current process that was once made. -/
structure Sound (e : Embla) : Prop where
  inv : e.Inv
  current : ∀ p, e.scheduler.current = some p → p < e.processHeap.next
  formed : ∀ g ∈ e.processGroupManager.groups, (e.group g).Formed

theorem sound_create (host : Host) : (emblaCreate host).Sound :=
  ⟨inv_create host, fun _ hp => (by cases hp), fun _ hg => absurd hg List.not_mem_nil⟩

/-- All that a step can have done to a group `g` of the table it leaves. -/
inductive GroupStep (e e' : Embla) (g : GroupPtr) : Prop
  | same (hg : g ∈ e.processGroupManager.groups) (hx : e'.group g = e.group g)
  | joined (hg : g ∈ e.processGroupManager.groups) (hcap : ¬ (e.group g).CapReached)
      (hsize : (e.group g).processes.length < processGroupInitialCapacity) (p : ProcessPtr) (hostId : Int)
      (hhost : hostId ≠ emblaInvalidHostPgid)
      (hx : e'.group g = (processGroupSetHostId (e.group g) hostId).withMembers ((e.group g).processes ++ [p]))
  | left (hg : g ∈ e.processGroupManager.groups) (p : ProcessPtr) (members : List ProcessPtr)
      (hmore : (e.group g).processes ≠ [p]) (hperm : members.Perm ((e.group g).processes.erase p))
      (hx : e'.group g = (e.group g).withMembers members)
  | new (hg : g = e.groupHeap.next) (p : ProcessPtr) (id : Nat) (hostId : Int) (hhost : hostId ≠ emblaInvalidHostPgid)
      (hx : e'.group g = (processGroupSetHostId (processGroupCreate id) hostId).withMembers [p])

variable {e e' : Embla} {g : GroupPtr} {p : ProcessPtr}

theorem GroupStep.formed (hstep : GroupStep e e' g) (h : ∀ g ∈ e.processGroupManager.groups, (e.group g).Formed) :
    (e'.group g).Formed := by
  cases hstep with
  | same hg hx =>
    rw [hx]
    exact h g hg
  | joined hg hcap hsize p hostId hhost hx =>
    rw [hx]
    refine ⟨List.append_ne_nil_of_right_ne_nil _ (List.cons_ne_nil _ _), hhost, ?_⟩
    change ((e.group g).processes ++ [p]).length ≤ _
    rw [List.length_append, List.length_singleton]
    omega
  | left hg p members hmore hperm hx =>
    rw [hx]
    have hold := h g hg
    have hlen : members.length = ((e.group g).processes.erase p).length := hperm.length_eq
    refine ⟨?_, hold.hostId, ?_⟩
    · -- a group that lost its only member is no longer in the table
      intro hnil
      change members = [] at hnil
      rw [hnil, List.length_nil] at hlen
      have herase : (e.group g).processes.erase p = [] := List.length_eq_zero_iff.1 hlen.symm
      rcases List.erase_eq_nil_iff.1 herase with hnone | hone
      · exact hold.nonempty hnone
      · exact hmore hone
    · have hle : ((e.group g).processes.erase p).length ≤ (e.group g).processes.length := List.erase_sublist.length_le
      have hsize := hold.size
      change members.length ≤ _
      omega
  | new hg p id hostId hhost hx =>
    rw [hx]
    exact ⟨List.cons_ne_nil _ _, hhost, by change 1 ≤ 16; omega⟩

/-! ## What the steps do to the groups -/

/-- A failed spawn writes at most the host id of a group that had none. -/
theorem unspawned_group (hs : e.Sound) (hg : g ∈ e.processGroupManager.groups) (hu : Unspawned g e e') (g' : GroupPtr) :
    e'.group g' = e.group g' := by
  rcases eq_or_ne g' g with rfl | hne
  · obtain ⟨hostId, hx, hkeep⟩ := hu.group
    rw [hx, hkeep (hs.formed g' hg).hostId]
    rfl
  · exact hu.groups g' hne

theorem Spawned.groupSteps {parentId : Nat} {name : String} (hs : Spawned parentId name g e e')
    (hg : g ∈ e.processGroupManager.groups) (hroom : e.Room g) :
    ∀ g' ∈ e'.processGroupManager.groups, GroupStep e e' g' := by
  intro g' hg'
  rw [hs.groupManager] at hg'
  rcases eq_or_ne g' g with rfl | hne
  · obtain ⟨_, -, -, ⟨hostId, hhost, hx⟩, -⟩ := hs.record
    exact .joined hg hroom.cap hroom.members _ hostId hhost hx
  · exact .same hg' (hs.groups g' hne)

/-- After a spawn the table has the groups it had and one for the new process alone. -/
theorem Launched.group_cases {name : String} (h : e.Inv) (hl : Launched name e e')
    (hg : g ∈ e'.processGroupManager.groups) :
    (g ∈ e.processGroupManager.groups ∧ e'.group g = e.group g) ∨
    (g = e.groupHeap.next ∧ ∃ id hostId, hostId ≠ emblaInvalidHostPgid ∧
      e'.group g = (processGroupSetHostId (processGroupCreate id) hostId).withMembers [e.processHeap.next]) := by
  rw [Spawned.groupManager hl] at hg
  have hmem : g ∈ e.processGroupManager.groups ∨ g = e.groupHeap.next := by simpa [withNewGroup] using hg
  rcases hmem with hold | rfl
  · have hne : g ≠ e.groupHeap.next := fun hc => absurd (h.groupTable.keyed.alloc g hold) (by lia)
    exact .inl ⟨hold, (Spawned.groups hl g hne).trans (Heap.read_alloc_of_ne _ _ hne)⟩
  · obtain ⟨_, -, -, ⟨hostId, hhost, hx⟩, -⟩ := Spawned.record hl
    rw [withNewGroup_group] at hx
    exact .inr ⟨rfl, _, hostId, hhost, hx⟩

theorem Launched.groupSteps {name : String} (h : e.Inv) (hl : Launched name e e') :
    ∀ g ∈ e'.processGroupManager.groups, GroupStep e e' g := by
  intro g hg
  rcases Launched.group_cases h hl hg with ⟨hold, hx⟩ | ⟨hnew, id, hostId, hhost, hx⟩
  · exact .same hold hx
  · exact .new hnew _ id hostId hhost hx

/-- Nothing but the scheduler and the states of processes. -/
structure Rescheduled (e e' : Embla) : Prop where
  manager : e'.processManager = e.processManager
  groupHeap : e'.groupHeap = e.groupHeap
  groupManager : e'.processGroupManager = e.processGroupManager
  next : e'.processHeap.next = e.processHeap.next
  record : ∀ q, ∃ state, e'.process q = (fun r : Process => { r with state := state }) (e.process q) ∧
    ((e.process q).state ≠ .created → state ≠ .created)

theorem Rescheduled.tracked (h : Rescheduled e e') (q : ProcessPtr) : e'.Tracked q ↔ e.Tracked q :=
  tracked_congr (congrArg ProcessManager.processes h.manager) q

/-- Nothing but the state of a record changes. -/
theorem Rescheduled.kept (h : Rescheduled e e') (q : ProcessPtr) :
    (e'.process q).id = (e.process q).id ∧ (e'.process q).parentId = (e.process q).parentId ∧
      (e'.process q).hostId = (e.process q).hostId := by
  obtain ⟨state, hx, -⟩ := h.record q
  rw [hx]
  exact ⟨rfl, rfl, rfl⟩

theorem Rescheduled.inv (hr : Rescheduled e e') (h : e.Inv)
    (hq : ∃ l, e'.scheduler.Queue l ∧ ∀ p ∈ l, p < e'.processHeap.next) : e'.Inv := by
  refine h.sameTables ⟨le_of_eq hr.next.symm, by rw [hr.manager], ?_, fun q hq => ?_, by rw [hr.groupHeap],
    by rw [hr.groupManager], ?_, fun g _ => ?_⟩ hq
  · rw [hr.manager]
    exact ⟨le_refl _, h.table.nextHi⟩
  · obtain ⟨state, hx, hstarted⟩ := hr.record q
    rw [hx]
    exact ⟨rfl, rfl, hstarted (h.started q hq)⟩
  · rw [hr.groupManager]
    exact ⟨le_refl _, h.groupTable.nextHi⟩
  · unfold group
    rw [hr.groupHeap]
    exact ⟨rfl, rfl⟩

theorem rescheduled_started (e : Embla) (p : ProcessPtr) (s : Scheduler) : Rescheduled e (e.started p s) := by
  refine ⟨rfl, rfl, rfl, rfl, fun q => ?_⟩
  rcases eq_or_ne q p with rfl | hne
  · exact ⟨.running, started_self e q s, fun _ hc => by cases hc⟩
  · exact ⟨(e.process q).state, started_other e s hne, id⟩

theorem rescheduled_scheduler (e : Embla) (s : Scheduler) : Rescheduled e { e with scheduler := s } :=
  ⟨rfl, rfl, rfl, rfl, fun q => ⟨(e.process q).state, rfl, id⟩⟩

/-- A dispatch is refused, starts the front of the queue or sends it to the back. -/
theorem emblaDispatch_cases {l : List ProcessPtr} (hl : e.scheduler.Queue l) :
    emblaDispatch e = (-1, e) ∨
    (∃ p rest s, l = p :: rest ∧ e.scheduler.current = none ∧ processCanTransition (e.process p).state .running = true ∧
      emblaDispatch e = (0, e.started p s) ∧ s.Queue rest ∧ s.current = some p) ∨
    ∃ p rest s, l = p :: rest ∧ e.scheduler.current = none ∧ processCanTransition (e.process p).state .running = false ∧
      emblaDispatch e = (-1, { e with scheduler := s }) ∧ s.Queue (rest ++ [p]) ∧ s.current = none := by
  by_cases hc : e.scheduler.current = none
  · unfold emblaDispatch
    cases l with
    | nil =>
      left
      rw [schedulerDispatch_nil hl]
    | cons p rest =>
      right
      cases hcan : processCanTransition (e.process p).state .running with
      | true =>
        left
        obtain ⟨s, hx, hqueue, hcur⟩ := schedulerDispatch_ok hl hc hcan
        rw [hx]
        exact ⟨p, rest, s, rfl, hc, hcan, rfl, hqueue, hcur⟩
      | false =>
        right
        obtain ⟨s, hx, hqueue, hcur⟩ := schedulerDispatch_refused hl hc hcan
        rw [hx]
        exact ⟨p, rest, s, rfl, hc, hcan, rfl, hqueue, hcur⟩
  · exact .inl (dispatch_busy hc)

/-- What a yield does to the current process. -/
def yielded (e : Embla) (p : ProcessPtr) (scheduler : Scheduler) : Embla :=
  { e with scheduler := scheduler, processHeap := e.processHeap.modify p fun r => { r with state := .ready } }

theorem yielded_self (e : Embla) (p : ProcessPtr) (s : Scheduler) :
    (e.yielded p s).process p = (fun r : Process => { r with state := .ready }) (e.process p) := by
  unfold yielded Embla.process
  rw [Heap.read_modify_self]

theorem yielded_other (e : Embla) {p r : ProcessPtr} (s : Scheduler) (h : r ≠ p) :
    (e.yielded p s).process r = e.process r := by
  unfold yielded Embla.process
  rw [Heap.read_modify_of_ne _ _ h]

theorem rescheduled_yielded (e : Embla) (p : ProcessPtr) (s : Scheduler) : Rescheduled e (e.yielded p s) := by
  refine ⟨rfl, rfl, rfl, rfl, fun q => ?_⟩
  rcases eq_or_ne q p with rfl | hne
  · exact ⟨.ready, yielded_self e q s, fun _ hc => by cases hc⟩
  · exact ⟨(e.process q).state, yielded_other e s hne, id⟩

/-- A yield is refused or puts the current process, ready again, at the back of the queue. -/
theorem emblaYield_cases {l : List ProcessPtr} (hl : e.scheduler.Queue l) :
    emblaYield e = (-1, e) ∨
    ∃ p s, e.scheduler.current = some p ∧ processCanTransition (e.process p).state .ready = true ∧
      emblaYield e = (0, e.yielded p s) ∧ s.Queue (l ++ [p]) ∧ s.current = none := by
  unfold emblaYield schedulerYield
  cases hc : e.scheduler.current with
  | none => exact .inl rfl
  | some p =>
    simp only
    -- the room is checked before the state changes
    by_cases hfull : e.scheduler.count ≥ schedulerInitialCapacity
    · rw [if_pos hfull]
      exact .inl rfl
    rw [if_neg hfull]
    cases hcan : processCanTransition (e.process p).state .ready with
    | false =>
      left
      rw [show processTransition (e.processHeap.read p) .ready = (-1, e.process p) from processTransition_refused hcan]
      rfl
    | true =>
      right
      rw [show processTransition (e.processHeap.read p) .ready =
        (0, (fun r : Process => { r with state := .ready }) (e.process p)) from processTransition_ok hcan]
      have hlen : l.length < schedulerInitialCapacity := by
        rw [← hl.count]
        omega
      obtain ⟨h1, h2, h3⟩ := schedulerAdd_ok (hl.withCurrent none) hlen p
      refine ⟨p, (schedulerAdd { e.scheduler with current := none } p).2, rfl, hcan, ?_, h2, h3⟩
      simp only [ne_eq, not_true_eq_false, if_false, h1, yielded]
      rw [e.processHeap.modify_congr]
      rfl

theorem Handled.group (h : Handled e e') (g : GroupPtr) : e'.group g = e.group g := by
  unfold Embla.group
  rw [h.groupHeap]

theorem emblaHandleNextEvent_handled (e : Embla) : Handled e (emblaHandleNextEvent e) := by
  have hpolled : Handled e e.polled := .onlyHost ⟨_, rfl⟩
  rw [emblaHandleNextEvent_eq]
  cases e.host.wait4s.head with
  | event event => exact hpolled.after rfl (emblaHandleChildEvent_handled event e.polled)
  | nothing => exact hpolled
  | echild => exact hpolled
  | error => exact hpolled

/-- What a step leaves of the tables and of the current process. -/
theorem Sound.step_groups (h : e.Sound) (hstep : Step e e') :
    ∀ g ∈ e'.processGroupManager.groups, GroupStep e e' g := by
  have hsame : e'.processGroupManager = e.processGroupManager → e'.groupHeap = e.groupHeap →
      ∀ g ∈ e'.processGroupManager.groups, GroupStep e e' g := by
    intro hm hh g hg
    rw [hm] at hg
    exact .same hg (by unfold Embla.group; rw [hh])
  cases hstep with
  | spawn name =>
    by_cases hs : e.Spawnable
    · obtain ⟨e₁, hx, hl⟩ := emblaSpawn_launched h.inv hs name
      rw [hx]
      exact Launched.groupSteps h.inv hl
    · obtain ⟨e₁, hx, htables, -, -, -, hgroups⟩ := emblaSpawn_failed h.inv hs name
      rw [hx]
      intro g hg
      rw [htables.groups] at hg
      exact .same hg (hgroups g hg)
  | spawnChild hp name =>
    obtain ⟨g, hg, -, ⟨hroom, e₁, hx, hs⟩ | ⟨-, e₁, hx, hu⟩⟩ := emblaSpawnChild_cases h.inv hp name <;> rw [hx]
    · exact Spawned.groupSteps hs hg hroom
    · intro g' hg'
      rw [hu.groupManager] at hg'
      exact .same hg' (unspawned_group h hg hu g')
  | host ho hm =>
    obtain ⟨host, rfl⟩ := ho
    exact hsame rfl rfl
  | handle =>
    have hh := emblaHandleNextEvent_handled e
    exact hsame hh.groupManager hh.groupHeap
  | dispatch => exact hsame rfl rfl
  | yield => exact hsame rfl rfl
  | reap hp hdead =>
    obtain ⟨e₁, hx, hr, -⟩ := emblaReapFoundProcess_ok h.inv hp
    rw [hx]
    intro g hg
    obtain ⟨hold, hmore⟩ := (hr.groups g).1 hg
    obtain ⟨members, hgroup, hperm⟩ := hr.members g hold
    exact .left hold _ members hmore hperm hgroup
  | state => exact hsame rfl rfl

theorem Sound.handled (h : e.Sound) (hh : Handled e e') : e'.Sound := by
  refine ⟨h.inv.handled hh, fun p hp => ?_, fun g hg => ?_⟩
  · obtain ⟨l, hl, -⟩ := h.inv.queue
    rw [hh.next]
    rcases hh.scheduler with hs | ⟨q, hrem, hs⟩
    · rw [hs] at hp
      exact h.current p hp
    · obtain ⟨-, -, -, hcur | hcur⟩ := schedulerRemove_queue hl hrem <;> rw [hs, hcur] at hp
      · exact h.current p hp
      · cases hp
  · rw [hh.groupManager] at hg
    rw [hh.group]
    exact h.formed g hg

/-- A spawn adds to the queue and leaves the current process alone. -/
theorem Spawned.current {parentId : Nat} {name : String} (hs : Spawned parentId name g e e')
    (hq : ∃ l, e.scheduler.Queue l) (hroom : e.scheduler.count < schedulerInitialCapacity)
    (hold : ∀ p, e.scheduler.current = some p → p < e.processHeap.next) :
    ∀ p, e'.scheduler.current = some p → p < e'.processHeap.next := by
  intro p hp
  obtain ⟨l, hl⟩ := hq
  have hcur := (schedulerAdd_ok hl (by rw [← hl.count]; exact hroom) e.processHeap.next).2.2
  rw [hs.scheduler] at hp
  rw [hs.next]
  exact Nat.lt_succ_of_lt (hold p (hcur.symm.trans hp))

theorem Sound.step (h : e.Sound) (hstep : Step e e') : e'.Sound := by
  have hformed : ∀ g ∈ e'.processGroupManager.groups, (e'.group g).Formed := fun g hg =>
    (h.step_groups hstep g hg).formed h.formed
  obtain ⟨l, hl, hlt⟩ := h.inv.queue
  suffices hmain : e'.Inv ∧ ∀ p, e'.scheduler.current = some p → p < e'.processHeap.next from
    ⟨hmain.1, hmain.2, hformed⟩
  cases hstep with
  | spawn name =>
    by_cases hs : e.Spawnable
    · obtain ⟨e₁, hx, hl₁⟩ := emblaSpawn_launched h.inv hs name
      rw [hx]
      exact ⟨Launched.inv h.inv hs hl₁, Spawned.current hl₁ ⟨l, hl⟩ hs.2 h.current⟩
    · obtain ⟨e₁, hx, htables, -, hsched, -, -⟩ := emblaSpawn_failed h.inv hs name
      rw [hx]
      constructor
      · exact h.inv.sameTables htables ⟨l, by rwa [hsched], fun p hp => lt_of_lt_of_le (hlt p hp) htables.next⟩
      · intro p hp
        rw [hsched] at hp
        exact lt_of_lt_of_le (h.current p hp) htables.next
  | spawnChild hp name =>
    obtain ⟨g, hg, -, ⟨hroom, e₁, hx, hs⟩ | ⟨-, e₁, hx, hu⟩⟩ := emblaSpawnChild_cases h.inv hp name <;> rw [hx]
    · exact ⟨hs.inv h.inv hg hroom, Spawned.current hs ⟨l, hl⟩ hroom.queue h.current⟩
    · constructor
      · exact h.inv.sameTables (hu.sameTables h.inv)
          ⟨l, by rwa [hu.scheduler], fun p hp => lt_of_lt_of_le (hlt p hp) hu.next⟩
      · intro p hp
        rw [hu.scheduler] at hp
        exact lt_of_lt_of_le (h.current p hp) hu.next
  | host ho hm =>
    have hinv := ho.inv h.inv
    obtain ⟨host, rfl⟩ := ho
    exact ⟨hinv, h.current⟩
  | handle =>
    have hsound := h.handled (emblaHandleNextEvent_handled e)
    exact ⟨hsound.inv, hsound.current⟩
  | dispatch =>
    rcases emblaDispatch_cases hl with hx | ⟨p, rest, s, rfl, -, -, hx, hqueue, hcur⟩ |
      ⟨p, rest, s, rfl, -, -, hx, hqueue, hcur⟩ <;> rw [hx]
    · exact ⟨h.inv, h.current⟩
    · -- the front of the queue is now current
      constructor
      · exact (rescheduled_started e p s).inv h.inv
          ⟨rest, hqueue, fun q hq => hlt q (List.mem_cons_of_mem _ hq)⟩
      · intro q hq
        change s.current = some q at hq
        rw [hcur] at hq
        cases hq
        exact hlt p List.mem_cons_self
    · -- it could not be started and is at the back again
      constructor
      · refine (rescheduled_scheduler e s).inv h.inv ⟨rest ++ [p], hqueue, fun q hq => hlt q ?_⟩
        exact (List.perm_append_singleton p rest).mem_iff.1 hq
      · intro q hq
        change s.current = some q at hq
        rw [hcur] at hq
        cases hq
  | yield =>
    rcases emblaYield_cases hl with hx | ⟨p, s, hc, -, hx, hqueue, hcur⟩ <;> rw [hx]
    · exact ⟨h.inv, h.current⟩
    · constructor
      · refine (rescheduled_yielded e p s).inv h.inv ⟨l ++ [p], hqueue, fun q hq => ?_⟩
        rcases List.mem_append.1 hq with hq | hq
        · exact hlt q hq
        · rw [List.mem_singleton.1 hq]
          exact h.current p hc
      · intro q hq
        change s.current = some q at hq
        rw [hcur] at hq
        cases hq
  | reap hp hdead =>
    obtain ⟨e₁, hx, hr, hinv⟩ := emblaReapFoundProcess_ok h.inv hp
    rw [hx]
    refine ⟨hinv, fun q hq => ?_⟩
    rw [hr.scheduler] at hq
    rw [hr.heap]
    exact h.current q hq
  | state state =>
    exact ⟨⟨h.inv.table, h.inv.groupTable, h.inv.membersNodup, h.inv.member, h.inv.grouped, h.inv.started, h.inv.queue⟩,
      h.current⟩

theorem Sound.steps (h : e.Sound) (hs : e.Steps e') : e'.Sound := hs.invariant (fun _ _ hI hstep => hI.step hstep) h

/-! ## Drains and caps -/

theorem drain_handled (e : Embla) : Handled e (serviceRegistryDrainOneEvent e).2 := by
  have hpolled : Handled e e.polled := .onlyHost ⟨_, rfl⟩
  rcases serviceRegistryDrainOneEvent_cases e with ⟨-, hx⟩ | ⟨event, p, -, hd, hx⟩ <;> rw [hx]
  · exact hpolled
  · refine hpolled.after rfl (.modifyProcess e.polled p ?_ fun hs => ?_)
    · exact drainRecord_id e.host.platform event (e.polled.process p)
    · rw [drainRecord_state_death _ hd hs]
      exact fun hc => by cases hc

theorem Sound.drain (h : e.Sound) : (serviceRegistryDrainOneEvent e).2.Sound := h.handled (drain_handled e)

/-- A cap changes nothing else of a group. -/
theorem setMaxMembers_group (g g' : GroupPtr) (maxMembers : Nat) (e : Embla) :
    ((emblaSetMaxMembers g maxMembers e).group g').id = (e.group g').id ∧
    ((emblaSetMaxMembers g maxMembers e).group g').processes = (e.group g').processes ∧
    ((emblaSetMaxMembers g maxMembers e).group g').hostId = (e.group g').hostId := by
  unfold emblaSetMaxMembers
  rcases eq_or_ne g' g with rfl | hne
  · rw [group_modifyGroup_self]
    exact ⟨rfl, rfl, rfl⟩
  · rw [group_modifyGroup_of_ne e _ hne]
    exact ⟨rfl, rfl, rfl⟩

theorem Sound.setMaxMembers (h : e.Sound) (g : GroupPtr) (maxMembers : Nat) :
    (emblaSetMaxMembers g maxMembers e).Sound := by
  have hgroup := fun g' => setMaxMembers_group g g' maxMembers e
  refine ⟨?_, h.current, fun g' hg' => ?_⟩
  · refine h.inv.sameTables ⟨le_refl _, rfl, ⟨le_refl _, h.inv.table.nextHi⟩, fun p hp => ⟨rfl, rfl, h.inv.started p hp⟩,
      le_refl _, rfl, ⟨le_refl _, h.inv.groupTable.nextHi⟩, fun g' _ => ⟨(hgroup g').1, (hgroup g').2.1⟩⟩ h.inv.queue
  · have hold := h.formed g' hg'
    constructor
    · rw [(hgroup g').2.1]
      exact hold.nonempty
    · rw [(hgroup g').2.2]
      exact hold.hostId
    · rw [(hgroup g').2.1]
      exact hold.size

theorem Sound.onlyHost (h : e.Sound) (ho : e.OnlyHost e') : e'.Sound := h.handled (.onlyHost ho)

theorem Sound.exec (h : e.Sound) {op : EmblaOp} (hv : op.Valid e) (hx : op.exec e = some e') : e'.Sound := by
  rcases EmblaOp.exec_steps hv hx with ⟨g, maxMembers, rfl, -, rfl⟩ | ⟨rfl, rfl⟩ | hs
  · exact h.setMaxMembers g maxMembers
  · exact h.drain
  · exact h.steps hs

theorem sound_of_runs {host : Host} (h : EmblaRuns (emblaCreate host) e) : e.Sound :=
  h.holds (fun _ _ _ hI hv hx => hI.exec hv hx) (sound_create host)

/-! ## Member caps over a run -/

theorem Sound.step_groupNext (h : e.Sound) (hstep : Step e e') : e.groupHeap.next ≤ e'.groupHeap.next := by
  cases hstep with
  | spawn name =>
    by_cases hs : e.Spawnable
    · obtain ⟨e₁, hx, hl⟩ := emblaSpawn_launched h.inv hs name
      rw [hx]
      exact le_trans (Nat.le_succ _) (le_of_eq (Spawned.groupNext hl).symm)
    · obtain ⟨e₁, hx, htables, -⟩ := emblaSpawn_failed h.inv hs name
      rw [hx]
      exact htables.groupNext
  | spawnChild hp name =>
    obtain ⟨g, -, -, ⟨-, e₁, hx, hs⟩ | ⟨-, e₁, hx, hu⟩⟩ := emblaSpawnChild_cases h.inv hp name <;> rw [hx]
    · exact le_of_eq hs.groupNext.symm
    · exact le_of_eq hu.groupNext.symm
  | host ho hm =>
    obtain ⟨host, rfl⟩ := ho
    exact le_refl _
  | handle => exact le_of_eq (congrArg Heap.next (emblaHandleNextEvent_handled e).groupHeap.symm)
  | dispatch => exact le_refl _
  | yield => exact le_refl _
  | reap hp hdead =>
    obtain ⟨e₁, hx, hr, -⟩ := emblaReapFoundProcess_ok h.inv hp
    rw [hx]
    exact le_of_eq hr.groupNext.symm
  | state => exact le_refl _

/-- The group `g`, as long as it is there, has the cap `n` and keeps to it. -/
structure Capped (g : GroupPtr) (n : Nat) (e : Embla) : Prop where
  sound : e.Sound
  made : g < e.groupHeap.next
  cap : g ∈ e.processGroupManager.groups →
    (e.group g).hasMaxMembers = true ∧ (e.group g).maxMembers = n ∧ (e.group g).processes.length ≤ n

theorem Capped.step {n : Nat} (h : e.Capped g n) (hstep : Step e e') : e'.Capped g n := by
  refine ⟨h.sound.step hstep, lt_of_lt_of_le h.made (h.sound.step_groupNext hstep), fun hg' => ?_⟩
  cases h.sound.step_groups hstep g hg' with
  | same hg hx =>
    rw [hx]
    exact h.cap hg
  | joined hg hcap hsize p hostId hhost hx =>
    -- the group was below its cap when the member joined
    obtain ⟨h1, h2, h3⟩ := h.cap hg
    rw [hx]
    refine ⟨h1, h2, ?_⟩
    change ((e.group g).processes ++ [p]).length ≤ n
    rw [List.length_append, List.length_singleton]
    unfold ProcessGroup.CapReached at hcap
    rw [h2] at hcap
    have hbelow : ¬ (e.group g).processes.length ≥ n := fun hge => hcap ⟨h1, hge⟩
    omega
  | left hg p members hmore hperm hx =>
    obtain ⟨h1, h2, h3⟩ := h.cap hg
    rw [hx]
    refine ⟨h1, h2, le_trans ?_ h3⟩
    change members.length ≤ (e.group g).processes.length
    rw [hperm.length_eq]
    exact List.erase_sublist.length_le
  | new hg =>
    have := h.made
    lia

/-- Operations that do not set the cap of `g` again. -/
def KeepsCap (g : GroupPtr) (e : Embla) (op : EmblaOp) : Prop := op.Valid e ∧ ∀ n, op ≠ .setMaxMembers g n

theorem Capped.runs {n : Nat} (h : e.Capped g n) (hr : Runs EmblaOp.exec (KeepsCap g) e e') : e'.Capped g n := by
  refine runs_invariant (fun _ _ hv => hv.1) (fun _ _ hI hs => hI.step hs) (fun e g' m hI _ hv => ?_) (fun e hI _ => ?_) hr h
  · have hne : g ≠ g' := by
      rintro rfl
      exact hv.2 m rfl
    refine ⟨hI.sound.setMaxMembers g' m, hI.made, fun hg => ?_⟩
    unfold emblaSetMaxMembers
    rw [group_modifyGroup_of_ne e _ hne]
    exact hI.cap hg
  · have hh := drain_handled e
    refine ⟨hI.sound.drain, by rw [hh.groupHeap]; exact hI.made, fun hg => ?_⟩
    rw [hh.groupManager] at hg
    rw [hh.group]
    exact hI.cap hg

/-! ## Membership -/

/-- Tracked processes and members of tracked groups are the same, each once and in the group of its
record, and every group is formed. -/
structure ExactMembership (e : Embla) : Prop where
  nodup : e.processGroupManager.groups.Nodup
  ids : ∀ g ∈ e.processGroupManager.groups, ∀ g' ∈ e.processGroupManager.groups,
    (e.group g).id = (e.group g').id → g = g'
  home : ∀ p, e.Tracked p → ∃ g ∈ e.processGroupManager.groups, (e.group g).id = (e.process p).groupId ∧
    (e.group g).processes.count p = 1 ∧ ∀ g' ∈ e.processGroupManager.groups, p ∈ (e.group g').processes → g' = g
  tracked : ∀ g ∈ e.processGroupManager.groups, ∀ p ∈ (e.group g).processes, e.Tracked p
  formed : ∀ g ∈ e.processGroupManager.groups, (e.group g).Formed

theorem Sound.exactMembership (h : e.Sound) : e.ExactMembership where
  nodup := h.inv.groupTable.keyed.nodup
  ids := fun _ hg _ hg' hid => h.inv.groupTable.keyed.key_inj hg hg' hid
  home := by
    intro p hp
    obtain ⟨g, hg, hm⟩ := h.inv.grouped p hp
    have hid := (h.inv.member g hg p hm).2
    refine ⟨g, hg, hid.symm, List.count_eq_one_of_mem (h.inv.membersNodup g hg) hm, fun g' hg' hm' => ?_⟩
    exact h.inv.groupTable.keyed.key_inj hg' hg ((h.inv.member g' hg' p hm').2.symm.trans hid)
  tracked := fun g hg p hm => (h.inv.member g hg p hm).1
  formed := h.formed

/-- Membership is exact in every state of a run, a cap that fitted when it was set is kept until the
next one is set, and a terminated process can be reaped, alone. -/
theorem membership_exact {host : Host} (h : EmblaRuns (emblaCreate host) e) :
    e.ExactMembership ∧
    (∀ g ∈ e.processGroupManager.groups, ∀ n, (e.group g).processes.length ≤ n →
      ∀ e', Runs EmblaOp.exec (KeepsCap g) (emblaSetMaxMembers g n e) e' →
        g ∈ e'.processGroupManager.groups → (e'.group g).processes.length ≤ n) ∧
    ∀ p, e.Tracked p → (e.process p).state = .terminated →
      ∃ e', emblaReapProcess (e.process p).id e = (0, e') ∧ Reaped p e e' := by
  have hs := sound_of_runs h
  refine ⟨hs.exactMembership, fun g hg n hn e' hr hg' => ?_, fun p hp hdead => ?_⟩
  · have hset : (emblaSetMaxMembers g n e).Capped g n := by
      refine ⟨hs.setMaxMembers g n, hs.inv.groupTable.keyed.alloc g hg, fun _ => ?_⟩
      unfold emblaSetMaxMembers
      rw [group_modifyGroup_self]
      exact ⟨rfl, rfl, hn⟩
    exact ((hset.runs hr).cap hg').2.2
  · obtain ⟨e', hx, hr, -⟩ := emblaReapProcess_ok hs.inv hp hdead
    exact ⟨e', hx, hr⟩

end Embla

/-- A process with a child in its group, and the child's exit handled. -/
def parentAndDeadChild : Embla :=
  emblaHandleNextEvent (emblaSpawnChild 0 "child"
    (emblaSpawn "parent" (emblaCreate (.generous [.event (exitOf 1 3)] [] 0))).2).2

theorem parentAndDeadChild_run : EmblaRuns (emblaCreate (.generous [.event (exitOf 1 3)] [] 0)) parentAndDeadChild := by
  refine (((Runs.refl _).next (.runtime (.spawn "parent")) trivial rfl).next
    (.runtime (.spawnChild 0 "child")) ?_ rfl).next .handleEvent trivial rfl
  exact List.mem_singleton_self 0

theorem membership_exact_with_child :
    parentAndDeadChild.ExactMembership ∧ ∃ e', emblaReapProcess 2 parentAndDeadChild = (0, e') ∧
      Embla.Reaped 1 parentAndDeadChild e' := by
  obtain ⟨h1, -, h3⟩ := Embla.membership_exact parentAndDeadChild_run
  have hid : (parentAndDeadChild.process 1).id = 2 := by decide +kernel
  have hreap := h3 1 (by unfold Embla.Tracked; decide +kernel) (by decide +kernel)
  rw [hid] at hreap
  exact ⟨h1, hreap⟩

end EmblaOs
