/-
The invariant of the runtime's tables: processes and groups are kept under distinct ids, members
and tracked processes are the same, each in the group its record names, and the ready queue holds
addresses that were handed out. Every operation keeps it; with it `emblaSpawn` fails only for want
of room and a terminated process can always be reaped.
-/
import EmblaOs.Process.Spawn

namespace EmblaOs

open Lib

namespace Embla

structure Inv (e : Embla) : Prop where
  table : TableInv e.processHeap e.processManager
  groupTable : GroupTableInv e.groupHeap e.processGroupManager
  membersNodup : ∀ g ∈ e.processGroupManager.groups, (e.group g).processes.Nodup
  member : ∀ g ∈ e.processGroupManager.groups, ∀ p ∈ (e.group g).processes,
    e.Tracked p ∧ (e.process p).groupId = (e.group g).id
  grouped : ∀ p, e.Tracked p → ∃ g ∈ e.processGroupManager.groups, p ∈ (e.group g).processes
  started : ∀ p, e.Tracked p → (e.process p).state ≠ .created
  queue : ∃ q, e.scheduler.Queue q ∧ ∀ p ∈ q, p < e.processHeap.next

theorem inv_create (host : Host) : (emblaCreate host).Inv where
  table := tableInv_create _
  groupTable := groupTableInv_create _
  membersNodup := fun _ hg => absurd hg (List.not_mem_nil)
  member := fun _ hg => absurd hg (List.not_mem_nil)
  grouped := fun _ hp => absurd hp (List.not_mem_nil)
  started := fun _ hp => absurd hp (List.not_mem_nil)
  queue := ⟨[], schedulerCreate_queue, fun _ hp => absurd hp (List.not_mem_nil)⟩

theorem Inv.alloc {e : Embla} (h : e.Inv) {p : ProcessPtr} (hp : e.Tracked p) : p < e.processHeap.next :=
  h.table.keyed.alloc p hp

/-- The tables and what they say about their entries are the same in `e'`; counters may have grown. -/
structure SameTables (e e' : Embla) : Prop where
  next : e.processHeap.next ≤ e'.processHeap.next
  processes : e'.processManager.processes = e.processManager.processes
  nextPid : e.processManager.nextPid ≤ e'.processManager.nextPid ∧ e'.processManager.nextPid ≤ uint32Max
  ids : ∀ p, e.Tracked p → (e'.process p).id = (e.process p).id ∧ (e'.process p).groupId = (e.process p).groupId ∧
    (e'.process p).state ≠ .created
  groupNext : e.groupHeap.next ≤ e'.groupHeap.next
  groups : e'.processGroupManager.groups = e.processGroupManager.groups
  nextId : e.processGroupManager.nextId ≤ e'.processGroupManager.nextId ∧
    e'.processGroupManager.nextId ≤ uint32Max
  members : ∀ g ∈ e.processGroupManager.groups,
    (e'.group g).id = (e.group g).id ∧ (e'.group g).processes = (e.group g).processes

theorem tracked_congr {e e' : Embla} (h : e'.processManager.processes = e.processManager.processes) (p : ProcessPtr) :
    e'.Tracked p ↔ e.Tracked p := by
  unfold Tracked
  rw [h]

theorem SameTables.tracked {e e' : Embla} (hs : SameTables e e') (p : ProcessPtr) : e'.Tracked p ↔ e.Tracked p :=
  tracked_congr hs.processes p

theorem Inv.sameTables {e e' : Embla} (h : e.Inv) (hs : SameTables e e')
    (hq : ∃ q, e'.scheduler.Queue q ∧ ∀ p ∈ q, p < e'.processHeap.next) : e'.Inv := by
  have htracked := hs.tracked
  refine ⟨?_, ?_, fun g hg => ?_, fun g hg p hp => ?_, fun p hp => ?_, fun p hp => ?_, hq⟩
  · have := (h.table.skip hs.nextPid.1 hs.nextPid.2 e'.processManager.iteratorIndex).of_ids hs.next
      fun p hp => (hs.ids p hp).1
    rwa [← hs.processes] at this
  · have := (h.groupTable.skip hs.nextId.1 hs.nextId.2).of_ids hs.groupNext fun g hg => (hs.members g hg).1
    rwa [← hs.groups] at this
  · rw [hs.groups] at hg
    rw [(hs.members g hg).2]
    exact h.membersNodup g hg
  · rw [hs.groups] at hg
    rw [(hs.members g hg).2] at hp
    obtain ⟨h1, h2⟩ := h.member g hg p hp
    refine ⟨(htracked p).2 h1, ?_⟩
    rw [(hs.ids p h1).2.1, h2, (hs.members g hg).1]
  · obtain ⟨g, hg, hm⟩ := h.grouped p ((htracked p).1 hp)
    exact ⟨g, by rwa [hs.groups], by rwa [(hs.members g hg).2]⟩
  · exact (hs.ids p ((htracked p).1 hp)).2.2

/-! ## Spawning -/

/-- Slots, ids, memory and the host calls for one more process in a group of its own. -/
structure SpawnResources (e : Embla) : Prop where
  groups : e.processGroupManager.groups.length < processGroupManagerInitialCapacity
  groupIds : e.processGroupManager.nextId ≠ uint32Max
  processes : e.processManager.processes.length < processManagerInitialCapacity
  pids : e.processManager.nextPid ≠ uint32Max
  allocs : ∀ i < 4, e.host.allocs.get i = true
  fork : e.host.ForkRoom

/-- The resources and a free slot of the ready queue. -/
def Spawnable (e : Embla) : Prop := e.SpawnResources ∧ e.scheduler.count < schedulerInitialCapacity

/-- The state right after `embla_spawn` made the group. -/
def withNewGroup (e : Embla) : Embla :=
  { e with
    groupHeap := (e.groupHeap.alloc (processGroupCreate e.processGroupManager.nextId)).2
    processGroupManager := { e.processGroupManager with
      groups := e.processGroupManager.groups ++ [e.groupHeap.next]
      nextId := e.processGroupManager.nextId + 1 }
    host := { e.host with allocs := e.host.allocs.tail.tail } }

/-- One more process, alone in a group of its own and last in the ready queue. -/
def Launched (name : String) (e e' : Embla) : Prop := Spawned emblaRootPid name e.groupHeap.next e.withNewGroup e'

@[simp] theorem withNewGroup_group (e : Embla) :
    e.withNewGroup.group e.groupHeap.next = processGroupCreate e.processGroupManager.nextId :=
  Heap.read_alloc_self ..

theorem withNewGroup_get {e : Embla} (h : e.Inv) (hroom : e.processGroupManager.Room e.host) :
    GroupTableInv e.withNewGroup.groupHeap e.withNewGroup.processGroupManager ∧
    processGroupManagerGet e.withNewGroup.groupHeap e.withNewGroup.processGroupManager
      e.processGroupManager.nextId = some e.groupHeap.next := by
  have ht := h.groupTable.append hroom.1 hroom.2.1
  refine ⟨ht, ?_⟩
  have hget := ht.get (g := e.groupHeap.next) (by simp)
  rwa [Heap.read_alloc_self] at hget

theorem emblaSpawn_eq {e : Embla} (hroom : e.processGroupManager.Room e.host) (name : String) :
    emblaSpawn name e =
      match emblaSpawnInternal emblaRootPid e.processGroupManager.nextId name e.withNewGroup with
      | (none, e') => (none, { e' with processGroupManager :=
          (processGroupManagerDestroyGroup e'.groupHeap e'.processGroupManager e.processGroupManager.nextId).2 })
      | (some process, e') => (some process, e') := by
  have hid : (e.withNewGroup.group e.groupHeap.next).id = e.processGroupManager.nextId := by
    rw [withNewGroup_group]; rfl
  rw [← hid]
  unfold emblaSpawn
  simp only [createGroup_ok hroom]
  rfl

theorem SpawnResources.groupRoom {e : Embla} (hs : e.SpawnResources) : e.processGroupManager.Room e.host :=
  ⟨hs.groups, hs.groupIds, hs.allocs 0 (by decide), hs.allocs 1 (by decide)⟩

theorem Spawnable.room {e : Embla} (hs : e.Spawnable) : e.withNewGroup.Room e.groupHeap.next := by
  refine ⟨?_, ?_, ⟨hs.1.processes, hs.1.pids, hs.1.allocs 2 (by decide), hs.1.allocs 3 (by decide)⟩, hs.1.fork, hs.2⟩
  · rw [withNewGroup_group]
    exact fun hc => Bool.false_ne_true hc.1
  · rw [withNewGroup_group]
    exact Nat.zero_lt_succ _

theorem emblaSpawn_launched {e : Embla} (h : e.Inv) (hs : e.Spawnable) (name : String) :
    ∃ e', emblaSpawn name e = (some e.processHeap.next, e') ∧ Launched name e e' := by
  have hroom := hs.1.groupRoom
  obtain ⟨-, hget⟩ := withNewGroup_get h hroom
  obtain ⟨e', hx, hsp⟩ := emblaSpawnInternal_ok hget (by rw [withNewGroup_group]; rfl)
    (by rw [withNewGroup_group]; exact fun q hq => absurd hq (List.not_mem_nil)) hs.room emblaRootPid name
  refine ⟨e', ?_, hsp⟩
  rw [emblaSpawn_eq hroom, hx]
  rfl

/-- Without room NULL comes back and the tables, records and ready queue are as they were. -/
theorem emblaSpawn_failed {e : Embla} (h : e.Inv) (hs : ¬ e.Spawnable) (name : String) :
    ∃ e', emblaSpawn name e = (none, e') ∧ SameTables e e' ∧
      (∀ q < e.processHeap.next, e'.process q = e.process q) ∧ e'.scheduler = e.scheduler ∧ e'.state = e.state ∧
      ∀ g ∈ e.processGroupManager.groups, e'.group g = e.group g := by
  have hstarted : ∀ p, e.Tracked p → (e.process p).state ≠ .created := h.started
  by_cases hroom : e.processGroupManager.Room e.host
  · obtain ⟨hgt, hget⟩ := withNewGroup_get h hroom
    have hin : ¬ e.withNewGroup.Room e.groupHeap.next := by
      rintro ⟨-, -, ⟨h1, h2, h3, h4⟩, h5, h6⟩
      refine hs ⟨⟨hroom.1, hroom.2.1, h1, h2, fun i hi => ?_, h5⟩, h6⟩
      interval_cases i
      · exact hroom.2.2.1
      · exact hroom.2.2.2
      · exact h3
      · exact h4
    obtain ⟨e', hx, hu⟩ := emblaSpawnInternal_failed hget (by rw [withNewGroup_group]; rfl)
      (by rw [withNewGroup_group]; exact fun q hq => absurd hq (List.not_mem_nil)) h.table hin emblaRootPid name
    -- the group made for the spawn is still last and still empty
    obtain ⟨hostId, hgrp, -⟩ := hu.group
    rw [withNewGroup_group] at hgrp
    have hgt' : GroupTableInv e'.groupHeap e'.processGroupManager := by
      rw [hu.groupManager]
      refine hgt.of_ids (le_of_eq hu.groupNext.symm) fun g _ => ?_
      by_cases hg : g = e.groupHeap.next
      · subst hg
        change (e'.group _).id = (e.withNewGroup.group _).id
        rw [hgrp, withNewGroup_group]
        rfl
      · exact congrArg ProcessGroup.id (hu.groups g hg)
    have hdest := hgt'.destroy_last (g := e.groupHeap.next) (by rw [hu.groupManager]; rfl)
      (by change (e'.group _).processes = []; rw [hgrp]; rfl)
    rw [show (e'.groupHeap.read e.groupHeap.next).id = e.processGroupManager.nextId by
      change (e'.group _).id = _; rw [hgrp]; rfl] at hdest
    have hold : ∀ g ∈ e.processGroupManager.groups, e'.group g = e.group g := by
      intro g hg
      have hne : g ≠ e.groupHeap.next := fun hc => absurd (h.groupTable.keyed.alloc g hg) (by lia)
      exact (hu.groups g hne).trans (Heap.read_alloc_of_ne _ _ hne)
    rw [emblaSpawn_eq hroom, hx]
    simp only [hdest]
    refine ⟨_, rfl, ⟨hu.next, hu.processes, ⟨hu.nextPid.1, hu.nextPid.2 h.table.nextHi⟩, fun p hp => ?_, ?_, rfl, ?_,
      fun g hg => ?_⟩, hu.others, hu.scheduler, hu.state, hold⟩
    · have hrec : e'.process p = e.process p := hu.others p (h.alloc hp)
      refine ⟨congrArg Process.id hrec, congrArg Process.groupId hrec, fun hc => hstarted p hp ?_⟩
      rw [← hrec]
      exact hc
    · exact le_trans (Nat.le_succ _) (le_of_eq hu.groupNext.symm)
    · simp only [hu.groupManager]
      exact ⟨Nat.le_succ _, hgt.nextHi⟩
    · exact ⟨congrArg ProcessGroup.id (hold g hg), congrArg ProcessGroup.processes (hold g hg)⟩
  · obtain ⟨nextId, allocs, hx, h1, h2⟩ := createGroup_none hroom e.groupHeap
    unfold emblaSpawn
    simp only [hx]
    refine ⟨_, rfl, ⟨le_refl _, rfl, ⟨le_refl _, h.table.nextHi⟩, fun p hp => ⟨rfl, rfl, hstarted p hp⟩, le_refl _, rfl,
      ⟨h1, h2 h.groupTable.nextHi⟩, fun _ _ => ⟨rfl, rfl⟩⟩, fun _ _ => rfl, rfl, rfl, fun _ _ => rfl⟩

end Embla

section Spawned

variable {e e' : Embla} {parentId : Nat} {name : String} {g : GroupPtr}

theorem Spawned.tracked (hs : Spawned parentId name g e e') (p : ProcessPtr) :
    e'.Tracked p ↔ e.Tracked p ∨ p = e.processHeap.next := by
  unfold Embla.Tracked
  simp [hs.manager]

theorem Spawned.queue (hs : Spawned parentId name g e e') (hq : e.scheduler.count < schedulerInitialCapacity)
    {q : List ProcessPtr} (h : e.scheduler.Queue q) : e'.scheduler.Queue (q ++ [e.processHeap.next]) := by
  rw [hs.scheduler]
  exact (schedulerAdd_ok h (by rw [← h.count]; exact hq) _).2.1

/-- The record of a process that was tracked before is not touched. -/
theorem Spawned.old (hs : Spawned parentId name g e e') (h : e.Inv) {p : ProcessPtr} (hp : e.Tracked p) :
    e'.process p = e.process p :=
  hs.others p fun hc => absurd (h.alloc hp) (by lia)

/-- A spawn into a group of the table keeps the invariant. -/
theorem Spawned.inv (hs : Spawned parentId name g e e') (h : e.Inv) (hg : g ∈ e.processGroupManager.groups)
    (hroom : e.Room g) : e'.Inv := by
  obtain ⟨pid, -, hnew, ⟨hostId, -, hgroup⟩, -⟩ := hs.record
  have hid : ∀ g', (e'.group g').id = (e.group g').id := by
    intro g'
    rcases eq_or_ne g' g with rfl | hne
    · rw [hgroup]
      rfl
    · rw [hs.groups g' hne]
  refine ⟨?_, ?_, fun g' hg' => ?_, fun g' hg' p hp => ?_, fun p hp => ?_, fun p hp => ?_, ?_⟩
  · -- the new record has the next id, and all later writes leave ids alone
    rw [hs.manager]
    refine (h.table.append hroom.table.1 hroom.table.2.1 parentId (e.group g).id name).of_ids
      (le_of_eq hs.next.symm) fun p hp => ?_
    rcases eq_or_ne p e.processHeap.next with rfl | hne
    · rw [Heap.read_alloc_self]
      change (e'.process _).id = _
      rw [hnew]
    · rw [Heap.read_alloc_of_ne _ _ hne]
      exact congrArg Process.id (hs.others p hne)
  · rw [hs.groupManager]
    exact h.groupTable.of_ids (le_of_eq hs.groupNext.symm) fun g' _ => hid g'
  · rw [hs.groupManager] at hg'
    rcases eq_or_ne g' g with rfl | hne
    · -- members have been allocated before, the new process has not
      rw [hgroup]
      refine List.nodup_append.2 ⟨h.membersNodup g' hg', List.nodup_singleton _, fun p hp q hq hpq => ?_⟩
      rw [List.mem_singleton] at hq
      have := h.alloc (h.member g' hg' p hp).1
      lia
    · rw [hs.groups g' hne]
      exact h.membersNodup g' hg'
  · rw [hs.groupManager] at hg'
    rw [hid]
    have hold : p ∈ (e.group g').processes → e'.Tracked p ∧ (e'.process p).groupId = (e.group g').id := by
      intro hp
      obtain ⟨h1, h2⟩ := h.member g' hg' p hp
      exact ⟨(hs.tracked p).2 (.inl h1), by rw [hs.old h h1, h2]⟩
    rcases eq_or_ne g' g with rfl | hne
    · rw [hgroup] at hp
      rcases List.mem_append.1 hp with hp | hp
      · exact hold hp
      · rw [List.mem_singleton] at hp
        subst hp
        exact ⟨(hs.tracked _).2 (.inr rfl), by rw [hnew]; rfl⟩
    · rw [hs.groups g' hne] at hp
      exact hold hp
  · rw [hs.groupManager]
    rcases (hs.tracked p).1 hp with hp | rfl
    · obtain ⟨g', hg', hm⟩ := h.grouped p hp
      refine ⟨g', hg', ?_⟩
      rcases eq_or_ne g' g with rfl | hne
      · rw [hgroup]
        exact List.mem_append_left _ hm
      · rwa [hs.groups g' hne]
    · refine ⟨g, hg, ?_⟩
      rw [hgroup]
      exact List.mem_append_right _ (List.mem_singleton_self _)
  · rcases (hs.tracked p).1 hp with hp | rfl
    · rw [hs.old h hp]
      exact h.started p hp
    · rw [hnew]
      exact fun hc => by cases hc
  · obtain ⟨q, hq, hlt⟩ := h.queue
    refine ⟨_, hs.queue hroom.queue hq, fun p hp => ?_⟩
    rw [hs.next]
    rw [List.mem_append, List.mem_singleton] at hp
    rcases hp with hp | rfl
    · have := hlt p hp
      lia
    · lia

/-- A spawn into a group of the table that failed. -/
theorem Unspawned.sameTables (hu : Unspawned g e e') (h : e.Inv) : Embla.SameTables e e' := by
  refine ⟨hu.next, hu.processes, ⟨hu.nextPid.1, hu.nextPid.2 h.table.nextHi⟩, fun p hp => ?_,
    le_of_eq hu.groupNext.symm, by rw [hu.groupManager], ?_, fun g' _ => ?_⟩
  · rw [hu.others p (h.alloc hp)]
    exact ⟨rfl, rfl, h.started p hp⟩
  · rw [hu.groupManager]
    exact ⟨le_refl _, h.groupTable.nextHi⟩
  · rcases eq_or_ne g' g with rfl | hne
    · obtain ⟨hostId, hx, -⟩ := hu.group
      rw [hx]
      exact ⟨rfl, rfl⟩
    · rw [hu.groups g' hne]
      exact ⟨rfl, rfl⟩

end Spawned

namespace Embla

/-- A new, empty group of the table. -/
theorem Inv.withNewGroup {e : Embla} (h : e.Inv) (hroom : e.processGroupManager.Room e.host) :
    e.withNewGroup.Inv := by
  have hgroups : ∀ g, g ∈ e.withNewGroup.processGroupManager.groups ↔
      g ∈ e.processGroupManager.groups ∨ g = e.groupHeap.next := by simp [Embla.withNewGroup]
  have hold : ∀ g ∈ e.processGroupManager.groups, e.withNewGroup.group g = e.group g := fun g hg =>
    Heap.read_alloc_of_ne _ _ fun hc => absurd (h.groupTable.keyed.alloc g hg) (by lia)
  refine ⟨h.table, (withNewGroup_get h hroom).1, fun g hg => ?_, fun g hg p hp => ?_, fun p hp => ?_, h.started, h.queue⟩
  · rcases (hgroups g).1 hg with hg | rfl
    · rw [hold g hg]
      exact h.membersNodup g hg
    · rw [withNewGroup_group]
      exact List.nodup_nil
  · rcases (hgroups g).1 hg with hg | rfl
    · rw [hold g hg] at hp ⊢
      exact h.member g hg p hp
    · rw [withNewGroup_group] at hp
      cases hp
  · obtain ⟨g, hg, hm⟩ := h.grouped p hp
    exact ⟨g, (hgroups g).2 (.inl hg), by rwa [hold g hg]⟩

theorem Launched.tracked {name : String} {e e' : Embla} (hl : Launched name e e') (p : ProcessPtr) :
    e'.Tracked p ↔ e.Tracked p ∨ p = e.processHeap.next :=
  Spawned.tracked hl p

theorem Launched.inv {name : String} {e e' : Embla} (h : e.Inv) (hs : e.Spawnable) (hl : Launched name e e') :
    e'.Inv :=
  Spawned.inv hl (h.withNewGroup hs.1.groupRoom) (by simp [Embla.withNewGroup]) hs.room

/-- A child of a tracked process goes into its parent's group or, without room, nowhere. -/
theorem emblaSpawnChild_cases {e : Embla} (h : e.Inv) {parent : ProcessPtr} (hp : e.Tracked parent) (name : String) :
    ∃ g ∈ e.processGroupManager.groups, parent ∈ (e.group g).processes ∧
      ((e.Room g ∧ ∃ e', emblaSpawnChild parent name e = (some e.processHeap.next, e') ∧
        Spawned (e.process parent).id name g e e') ∨
      (¬ e.Room g ∧ ∃ e', emblaSpawnChild parent name e = (none, e') ∧ Unspawned g e e')) := by
  obtain ⟨g, hg, hm⟩ := h.grouped parent hp
  refine ⟨g, hg, hm, ?_⟩
  have hid : (e.group g).id = (e.process parent).groupId := (h.member g hg parent hm).2.symm
  have hvalid : (e.process parent).groupId ≠ emblaInvalidPgid := by
    have hlt : (e.group g).id < e.processGroupManager.nextId := (h.groupTable.keyed.keyLt g hg).2
    have hhi := h.groupTable.nextHi
    unfold emblaInvalidPgid
    omega
  have hget : processGroupManagerGet e.groupHeap e.processGroupManager (e.process parent).groupId = some g := by
    rw [← hid]
    exact h.groupTable.get hg
  have hold : ∀ q ∈ (e.group g).processes, q < e.processHeap.next := fun q hq => h.alloc (h.member g hg q hq).1
  have hx : emblaSpawnChild parent name e =
      emblaSpawnInternal (e.process parent).id (e.process parent).groupId name e := by
    unfold emblaSpawnChild
    exact if_neg hvalid
  rw [hx]
  by_cases hroom : e.Room g
  · exact .inl ⟨hroom, emblaSpawnInternal_ok hget hid hold hroom _ name⟩
  · exact .inr ⟨hroom, emblaSpawnInternal_failed hget hid hold h.table hroom _ name⟩

/-! ## Reaping -/

/-- `p` and nothing else left the table and its group, and the group went with it if that was all
of it. -/
structure Reaped (p : ProcessPtr) (e e' : Embla) : Prop where
  heap : e'.processHeap = e.processHeap
  tracked : ∀ q, e'.Tracked q ↔ e.Tracked q ∧ q ≠ p
  count : e'.processManager.processes.length + 1 = e.processManager.processes.length
  nextPid : e'.processManager.nextPid = e.processManager.nextPid
  nextId : e'.processGroupManager.nextId = e.processGroupManager.nextId
  scheduler : e'.scheduler = e.scheduler
  state : e'.state = e.state
  host : e'.host = e.host
  groupNext : e'.groupHeap.next = e.groupHeap.next
  groups : ∀ g, g ∈ e'.processGroupManager.groups ↔
    g ∈ e.processGroupManager.groups ∧ (e.group g).processes ≠ [p]
  members : ∀ g ∈ e.processGroupManager.groups, ∃ ms, e'.group g = (e.group g).withMembers ms ∧
    ms.Perm ((e.group g).processes.erase p)

theorem Reaped.process {e e' : Embla} {p : ProcessPtr} (hr : Reaped p e e') (q : ProcessPtr) : e'.process q = e.process q := by
  unfold Embla.process
  rw [hr.heap]

/-- With `p` out of its group `g` and out of the table, and `g` gone if that left it empty, the
tables fit again. -/
theorem Inv.reaped {e e' : Embla} (h : e.Inv) {g : GroupPtr} {p : ProcessPtr} {members : List ProcessPtr}
    (hg : g ∈ e.processGroupManager.groups) (hm : p ∈ (e.group g).processes) (hnodup : members.Nodup)
    (hmem : ∀ q, q ∈ members ↔ q ∈ (e.group g).processes ∧ q ≠ p)
    (htable : TableInv e'.processHeap e'.processManager) (hr : Reaped p e e')
    (hgt : GroupTableInv e'.groupHeap e'.processGroupManager)
    (hself : e'.group g = (e.group g).withMembers members) (hother : ∀ g', g' ≠ g → e'.group g' = e.group g')
    (hgroups : ∀ g', g' ∈ e'.processGroupManager.groups ↔
      g' ∈ e.processGroupManager.groups ∧ (g' = g → members ≠ [])) : e'.Inv := by
  have hproc := hr.process
  refine ⟨htable, hgt, fun g' hg' => ?_, fun g' hg' q hq => ?_, fun q hq => ?_, fun q hq => ?_, ?_⟩
  · rcases eq_or_ne g' g with rfl | hne
    · rw [hself]
      exact hnodup
    · rw [hother g' hne]
      exact h.membersNodup g' ((hgroups g').1 hg').1
  · have hin := ((hgroups g').1 hg').1
    rw [hproc]
    rcases eq_or_ne g' g with rfl | hne
    · rw [hself] at hq ⊢
      obtain ⟨h1, h2⟩ := (hmem q).1 hq
      exact ⟨(hr.tracked q).2 ⟨(h.member g' hin q h1).1, h2⟩, (h.member g' hin q h1).2⟩
    · rw [hother g' hne] at hq ⊢
      obtain ⟨h1, h2⟩ := h.member g' hin q hq
      refine ⟨(hr.tracked q).2 ⟨h1, ?_⟩, h2⟩
      -- no process is in two groups: both would have the id in its record
      rintro rfl
      exact hne (h.groupTable.keyed.key_inj hin hg (h2.symm.trans (h.member g hg q hm).2))
  · obtain ⟨h1, h2⟩ := (hr.tracked q).1 hq
    obtain ⟨g', hg', hq'⟩ := h.grouped q h1
    rcases eq_or_ne g' g with rfl | hne
    · have hin : q ∈ members := (hmem q).2 ⟨hq', h2⟩
      exact ⟨g', (hgroups g').2 ⟨hg', fun _ => List.ne_nil_of_mem hin⟩, by rw [hself]; exact hin⟩
    · exact ⟨g', (hgroups g').2 ⟨hg', fun hc => absurd hc hne⟩, by rwa [hother g' hne]⟩
  · rw [hproc]
    exact h.started q ((hr.tracked q).1 hq).1
  · obtain ⟨q, hq, hlt⟩ := h.queue
    exact ⟨q, by rwa [hr.scheduler], fun p hp => by rw [hr.heap]; exact hlt p hp⟩

/-- A tracked process can always be taken out of its group and the table. -/
theorem emblaReapFoundProcess_ok {e : Embla} (h : e.Inv) {p : ProcessPtr} (hp : e.Tracked p) :
    ∃ e', emblaReapFoundProcess p e = (0, e') ∧ Reaped p e e' ∧ e'.Inv := by
  obtain ⟨g, hg, hm⟩ := h.grouped p hp
  have hid : (e.process p).groupId = (e.group g).id := (h.member g hg p hm).2
  obtain ⟨members, hrem, hnodup, hmem, hlen⟩ := processGroupRemove_mem hm (h.membersNodup g hg)
  obtain ⟨manager, hdest, htable, htracked, hcount, hnext⟩ := h.table.destroy hp
  have hself : (e.modifyGroup g fun _ => (e.group g).withMembers members).group g = (e.group g).withMembers members :=
    e.group_modifyGroup_self ..
  have hother : ∀ g', g' ≠ g → (e.modifyGroup g fun _ => (e.group g).withMembers members).group g' = e.group g' :=
    fun g' => e.group_modifyGroup_of_ne _
  -- no process is in two groups: both would have the id in its record
  have hapart : ∀ g' ∈ e.processGroupManager.groups, g' ≠ g → p ∉ (e.group g').processes := by
    intro g' hg' hne hp'
    exact hne (h.groupTable.keyed.key_inj hg' hg ((h.member g' hg' p hp').2.symm.trans hid))
  have hlast : members = [] ↔ (e.group g).processes = [p] := by
    constructor
    · intro hnil
      rw [hnil] at hlen
      obtain ⟨r, hr⟩ := List.length_eq_one_iff.1 hlen.symm
      rw [hr] at hm ⊢
      rw [List.mem_singleton.1 hm]
    · intro hone
      rw [hone] at hlen
      exact List.length_eq_zero_iff.1 (by simpa using hlen)
  have hms : ∀ g' ∈ e.processGroupManager.groups, ∃ ms,
      (e.modifyGroup g fun _ => (e.group g).withMembers members).group g' = (e.group g').withMembers ms ∧
        ms.Perm ((e.group g').processes.erase p) := by
    intro g' hg'
    rcases eq_or_ne g' g with rfl | hne
    · refine ⟨members, hself, (List.perm_ext_iff_of_nodup hnodup ((h.membersNodup g' hg').erase p)).2 fun q => ?_⟩
      rw [hmem, (h.membersNodup g' hg').mem_erase_iff, and_comm]
    · refine ⟨(e.group g').processes, hother g' hne, ?_⟩
      rw [List.erase_of_not_mem (hapart g' hg' hne)]
  have hids : ∀ g', ((e.modifyGroup g fun _ => (e.group g).withMembers members).group g').id = (e.group g').id := by
    intro g'
    rcases eq_or_ne g' g with rfl | hne
    · rw [hself]; rfl
    · rw [hother g' hne]
  have hgt : GroupTableInv (e.modifyGroup g fun _ => (e.group g).withMembers members).groupHeap
      e.processGroupManager := h.groupTable.of_ids (le_refl _) fun g' _ => hids g'
  have hget : processGroupManagerGet e.groupHeap e.processGroupManager (e.process p).groupId = some g := by
    rw [hid]
    exact h.groupTable.get hg
  unfold emblaReapFoundProcess
  simp only [hget, hrem, ne_eq, not_true_eq_false, if_false, hself]
  rw [show processManagerDestroyProcess (e.modifyGroup g fun _ => (e.group g).withMembers members).processHeap
    (e.modifyGroup g fun _ => (e.group g).withMembers members).processManager (e.process p).id = (0, manager) from hdest]
  simp only [not_true_eq_false, if_false]
  by_cases hempty : members = []
  · obtain ⟨groups, hgdest, hgt', hgmem, -, hgnext⟩ := hgt.destroy hg (by
      change (Embla.group _ g).processes = []
      rw [hself]
      exact hempty)
    rw [show (Heap.read (e.modifyGroup g fun _ => (e.group g).withMembers members).groupHeap g).id =
      (e.process p).groupId from (hids g).trans hid.symm] at hgdest
    have hzero : ((e.group g).withMembers members).processes.length = 0 := by rw [hempty]; rfl
    rw [if_pos hzero]
    simp only [Embla.modifyGroup] at hgdest ⊢
    simp only [hgdest, not_true_eq_false, if_false]
    have hr : Reaped p e { e.modifyGroup g fun _ => (e.group g).withMembers members with
        processManager := manager, processGroupManager := groups } := by
      refine ⟨rfl, htracked, hcount, hnext, hgnext, rfl, rfl, rfl, rfl, fun g' => ?_, hms⟩
      rw [hgmem]
      refine and_congr_right fun hg' => ?_
      rcases eq_or_ne g' g with rfl | hne
      · exact iff_of_false (fun hc => hc rfl) (fun hc => hc (hlast.1 hempty))
      · refine iff_of_true hne fun hc => hapart g' hg' hne ?_
        rw [hc]
        exact List.mem_singleton_self p
    refine ⟨_, rfl, hr, h.reaped hg hm hnodup hmem htable hr hgt' hself hother fun g' => ?_⟩
    rw [hgmem, hempty]
    simp
  · have hpos : ((e.group g).withMembers members).processes.length ≠ 0 := fun hc => hempty (List.length_eq_zero_iff.1 hc)
    rw [if_neg hpos]
    have hr : Reaped p e { e.modifyGroup g fun _ => (e.group g).withMembers members with processManager := manager } := by
      refine ⟨rfl, htracked, hcount, hnext, rfl, rfl, rfl, rfl, rfl, fun g' => (and_iff_left_of_imp fun hg' hc => ?_).symm, hms⟩
      rcases eq_or_ne g' g with rfl | hne
      · exact hempty (hlast.2 hc)
      · refine hapart g' hg' hne ?_
        rw [hc]
        exact List.mem_singleton_self p
    refine ⟨_, rfl, hr, h.reaped hg hm hnodup hmem htable hr hgt hself hother fun g' => ?_⟩
    exact ⟨fun hg' => ⟨hg', fun _ => hempty⟩, fun hg' => hg'.1⟩

theorem emblaReapProcess_ok {e : Embla} (h : e.Inv) {p : ProcessPtr} (hp : e.Tracked p)
    (hdead : (e.process p).state = .terminated) :
    ∃ e', emblaReapProcess (e.process p).id e = (0, e') ∧ Reaped p e e' ∧ e'.Inv := by
  unfold emblaReapProcess
  rw [show processManagerGet e.processHeap e.processManager (e.process p).id = some p from h.table.get hp]
  simp only [hdead, ne_eq, not_true_eq_false, if_false]
  exact emblaReapFoundProcess_ok h hp

end Embla

end EmblaOs
