/-
The children that Embla has on the host. The calls made so far tell which children have not been
collected yet and which host group each was forked into. A live process always has such a child, in
the host group its group stands for, as long as fork hands out no pid of a live process and no death
is taken for that of a process that is dead already.
-/
import EmblaOs.Process.Watching
import EmblaOs.Process.Rollback

namespace EmblaOs

open Lib

/-- The host group of a child forked with this target: without one it leads a group of its own. -/
def childGroup (child target : Int) : Int := if target = emblaInvalidHostPgid then child else target

/-- What a call says of the child `pid`: it is there, in this host group, or it has been collected. -/
def HostCall.child (pid : Int) : HostCall → Option (Option Int)
  | .forked child target => if child = pid then some (some (childGroup child target)) else none
  | .collected child => if child = pid then some none else none
  | .reported event => if event.hostId.pid = pid ∧ event.status.Death then some none else none
  | _ => none

/-- Embla forked the child `pid` into the host group `group` and has not collected it since. -/
def HasChild (calls : List HostCall) (pid group : Int) : Prop :=
  calls.findSome? (HostCall.child pid) = some (some group)

/-- Embla forked the child `pid` and has not collected it since. -/
def Uncollected (calls : List HostCall) (pid : Int) : Prop := ∃ group, HasChild calls pid group

section Calls

variable {calls : List HostCall} {call : HostCall} {pid group : Int} {h h' : Host}

theorem hasChild_forked (calls : List HostCall) (pid target : Int) :
    HasChild (.forked pid target :: calls) pid (childGroup pid target) := by
  simp [HasChild, HostCall.child]

/-- A call that says nothing of the child. -/
theorem hasChild_cons (hc : call.child pid = none) : HasChild (call :: calls) pid group ↔ HasChild calls pid group := by
  unfold HasChild
  rw [List.findSome?_cons, hc]

theorem hasChild_fork_other {child : Int} (hne : child ≠ pid) (target : Int) :
    HasChild (.forked child target :: calls) pid group ↔ HasChild calls pid group :=
  hasChild_cons (if_neg hne)

theorem hasChild_report_other {event : ChildEvent} (hno : ¬ (event.hostId.pid = pid ∧ event.status.Death)) :
    HasChild (.reported event :: calls) pid group ↔ HasChild calls pid group :=
  hasChild_cons (if_neg hno)

theorem hasChild_takingBack_other {child : Int} (hne : child ≠ pid) (h : Host) :
    HasChild (h.takingBack child ++ calls) pid group ↔ HasChild calls pid group := by
  have hcollected : HostCall.child pid (.collected child) = none := if_neg hne
  unfold Host.takingBack
  split
  · exact hasChild_cons rfl
  split
  · exact (hasChild_cons hcollected).trans (hasChild_cons rfl)
  · exact hasChild_cons rfl

/-- Whatever a failed spawn did to the child it forked, it did nothing to another. -/
theorem Host.Attempted.hasChild (ha : h.Attempted h')
    (hne : ∀ child, h.forks.head = some child → child.pid ≠ pid) :
    HasChild h'.trace pid group ↔ HasChild h.trace pid group := by
  rcases ha with hx | ⟨child, target, hf, hx⟩ <;> rw [hx]
  have hother := hne child hf
  exact (hasChild_takingBack_other hother h).trans (hasChild_fork_other hother target)

end Calls

namespace Embla

/-- `p` is in the process table and has not ended. -/
def Alive (e : Embla) (p : ProcessPtr) : Prop := e.Tracked p ∧ (e.process p).state ≠ .terminated

/-- Fork does not hand out the pid of a live process. -/
def PidFree (e : Embla) : Prop :=
  ∀ child, e.host.forks.head = some child → ∀ p, e.Alive p → (e.process p).hostId ≠ child.pid

/-- The death reported next, if one is, is not that of a live process while the lookup finds a dead one. -/
def Unmistaken (e : Embla) : Prop :=
  ∀ event, e.host.wait4s.head = .event event → event.status.Death →
    ∀ q, processManagerGetByHostId e.processHeap e.processManager event.hostId.pid = some q →
      (e.process q).state = .terminated → ∀ p, e.Alive p → (e.process p).hostId ≠ event.hostId.pid

/-- The live processes have pids of their own, each that of an uncollected child in the host group of
its group. -/
structure Covered (e : Embla) : Prop where
  pids : ∀ p q, e.Alive p → e.Alive q → (e.process p).hostId = (e.process q).hostId → p = q
  child : ∀ g ∈ e.processGroupManager.groups, ∀ p ∈ (e.group g).processes, (e.process p).state ≠ .terminated →
    HasChild e.host.trace (e.process p).hostId (e.group g).hostId

variable {e e' : Embla} {p : ProcessPtr} {g : GroupPtr} {event : ChildEvent}

theorem covered_create (host : Host) : (emblaCreate host).Covered :=
  ⟨fun _ _ hp => absurd hp.1 List.not_mem_nil, fun _ hg => absurd hg List.not_mem_nil⟩

/-- A live process has an uncollected child. -/
theorem Covered.uncollected (h : e.Covered) (hinv : e.Inv) (hp : e.Alive p) :
    Uncollected e.host.trace (e.process p).hostId := by
  obtain ⟨g, hg, hm⟩ := hinv.grouped p hp.1
  exact ⟨_, h.child g hg p hm hp.2⟩

/-- Host calls that say nothing of any child. -/
theorem Covered.called (h : e.Covered) (ho : e.OnlyHost e')
    (hx : ∀ pid group, HasChild e'.host.trace pid group ↔ HasChild e.host.trace pid group) : e'.Covered := by
  obtain ⟨host, rfl⟩ := ho
  exact ⟨h.pids, fun g hg p hp hlive => (hx _ _).2 (h.child g hg p hp hlive)⟩

/-! ## Spawning -/

theorem Covered.spawned (h : e.Covered) (hinv : e.Inv) (hfree : e.PidFree) {parentId : Nat} {name : String}
    {g : GroupPtr} (hs : Spawned parentId name g e e')
    (hhost : ∀ child, e.host.forks.head = some child → (e'.group g).hostId = childGroup child.pid (e.group g).hostId)
    (hformed : (e.group g).processes ≠ [] → (e.group g).hostId ≠ emblaInvalidHostPgid) : e'.Covered := by
  obtain ⟨child, hf, hnew, ⟨_, -, hgroup⟩, htrace⟩ := hs.record
  have hnewPid : (e'.process e.processHeap.next).hostId = child.pid := by rw [hnew]
  have hold : ∀ p, e.Tracked p → e'.process p = e.process p := fun p hp => hs.old hinv hp
  have hwas : ∀ p, e'.Alive p → p ≠ e.processHeap.next → e.Alive p := by
    rintro p ⟨hp, hlive⟩ hne
    have hp' := ((hs.tracked p).1 hp).resolve_right hne
    exact ⟨hp', by rwa [hold p hp'] at hlive⟩
  have hapart : ∀ p, e.Alive p → (e'.process p).hostId ≠ child.pid := by
    intro p hp
    rw [hold p hp.1]
    exact hfree child hf p hp
  have hkept : ∀ p, e.Alive p → ∀ group, HasChild e.host.trace (e.process p).hostId group →
      HasChild e'.host.trace (e'.process p).hostId group := by
    intro p hp group hc
    rw [htrace, hold p hp.1]
    exact (hasChild_fork_other (hfree child hf p hp).symm _).2 hc
  refine ⟨fun p q hp hq hpq => ?_, fun g' hg' p hp hlive => ?_⟩
  · rcases eq_or_ne p e.processHeap.next with rfl | hpn <;> rcases eq_or_ne q e.processHeap.next with rfl | hqn
    · rfl
    · exact absurd (hpq.symm.trans hnewPid) (hapart q (hwas q hq hqn))
    · exact absurd (hpq.trans hnewPid) (hapart p (hwas p hp hpn))
    · have hp' := hwas p hp hpn
      have hq' := hwas q hq hqn
      rw [hold p hp'.1, hold q hq'.1] at hpq
      exact h.pids p q hp' hq' hpq
  · rw [hs.groupManager] at hg'
    rcases eq_or_ne g' g with rfl | hne
    · rw [hhost child hf]
      rw [hgroup] at hp
      rcases List.mem_append.1 hp with hp | hp
      · -- an old member: its group had a host id already
        have hp' : e.Alive p := by
          have ht := (hinv.member g' hg' p hp).1
          exact ⟨ht, by rwa [hold p ht] at hlive⟩
        unfold childGroup
        rw [if_neg (hformed (List.ne_nil_of_mem hp))]
        exact hkept p hp' _ (h.child g' hg' p hp hp'.2)
      · rw [List.mem_singleton] at hp
        subst hp
        rw [hnewPid, htrace]
        exact hasChild_forked ..
    · rw [hs.groups g' hne] at hp ⊢
      have ht := (hinv.member g' hg' p hp).1
      have hp' : e.Alive p := ⟨ht, by rwa [hold p ht] at hlive⟩
      exact hkept p hp' _ (h.child g' hg' p hp hp'.2)

/-- A spawn that failed leaves the live processes their children. -/
theorem Covered.unspawned (h : e.Covered) (hinv : e.Inv) (hfree : e.PidFree) (hsame : SameTables e e')
    (hproc : ∀ p < e.processHeap.next, e'.process p = e.process p)
    (hgroups : ∀ g ∈ e.processGroupManager.groups, e'.group g = e.group g) (ha : e.host.Attempted e'.host) :
    e'.Covered := by
  have hold : ∀ p, e.Tracked p → e'.process p = e.process p := fun p hp => hproc p (hinv.alloc hp)
  have hwas : ∀ p, e'.Alive p → e.Alive p := by
    rintro p ⟨hp, hlive⟩
    rw [hsame.tracked] at hp
    exact ⟨hp, by rwa [hold p hp] at hlive⟩
  refine ⟨fun p q hp hq hpq => ?_, fun g hg p hp hlive => ?_⟩
  · have hp' := hwas p hp
    have hq' := hwas q hq
    rw [hold p hp'.1, hold q hq'.1] at hpq
    exact h.pids p q hp' hq' hpq
  · rw [hsame.groups] at hg
    rw [hgroups g hg] at hp ⊢
    have ht := (hinv.member g hg p hp).1
    rw [hold p ht] at hlive ⊢
    refine (ha.hasChild fun child hf => ?_).2 (h.child g hg p hp hlive)
    exact (hfree child hf p ⟨ht, hlive⟩).symm

/-! ## Reports and reaping -/

/-- A report is noted for the child it is about, and the process it is noted for is that child's. -/
theorem Covered.told (h : e.Covered) (hinv : e.Inv) (hclear : e.Unmistaken) (hw : e.host.wait4s.head = .event event)
    (ht : Told event e e') (hx : e'.host.trace = .reported event :: e.host.trace) : e'.Covered := by
  have htracked := ht.handled.tracked
  have hwas : ∀ p, e'.Alive p → e.Alive p ∧ ¬ (event.status.Death ∧ (e.process p).hostId = event.hostId.pid) := by
    rintro p ⟨hp, hlive⟩
    have hp' := (htracked p).1 hp
    by_cases htold : event.status.Death ∧
        processManagerGetByHostId e.processHeap e.processManager event.hostId.pid = some p
    · exact absurd ((ht.applied p htold.1 htold.2).2.2 (hinv.started p hp')) hlive
    · have hsame := ht.others p htold
      have hold : e.Alive p := ⟨hp', fun hc => hlive (hsame.2.2.2 hc)⟩
      refine ⟨hold, fun ⟨hd, hpid⟩ => ?_⟩
      -- the lookup finds some process with this pid, which is neither another live one nor a dead one
      have hvalid : event.hostId.pid ≠ emblaInvalidHostPid := by
        have := event.hostId.pos
        unfold emblaInvalidHostPid
        omega
      cases hget : processManagerGetByHostId e.processHeap e.processManager event.hostId.pid with
      | none => exact (getByHostId_none hvalid).1 hget p hp' hpid
      | some q =>
        obtain ⟨hq, hqid, -⟩ := getByHostId_some hget
        by_cases hdead : (e.process q).state = .terminated
        · exact hclear event hw hd q hget hdead p hold hpid
        · have hqp := h.pids q p ⟨hq, hdead⟩ hold (hqid.trans hpid.symm)
          exact htold ⟨hd, by rw [hget, hqp]⟩
  refine ⟨fun p q hp hq hpq => ?_, fun g hg p hp hlive => ?_⟩
  · rw [ht.handled.hostId, ht.handled.hostId] at hpq
    exact h.pids p q (hwas p hp).1 (hwas q hq).1 hpq
  · rw [ht.handled.groupManager] at hg
    rw [ht.handled.group] at hp ⊢
    rw [ht.handled.hostId, hx]
    obtain ⟨hold, hother⟩ := hwas p ⟨(htracked p).2 (hinv.member g hg p hp).1, hlive⟩
    exact (hasChild_report_other fun hc => hother ⟨hc.2, hc.1.symm⟩).2 (h.child g hg p hp hold.2)

theorem Covered.reaped (h : e.Covered) (hr : Reaped p e e') : e'.Covered := by
  have hproc := hr.process
  have hwas : ∀ q, e'.Alive q → e.Alive q := by
    rintro q ⟨hq, hlive⟩
    exact ⟨((hr.tracked q).1 hq).1, by rwa [hproc] at hlive⟩
  refine ⟨fun a b ha hb hab => ?_, fun g hg q hq hlive => ?_⟩
  · rw [hproc, hproc] at hab
    exact h.pids a b (hwas a ha) (hwas b hb) hab
  · have hg' := ((hr.groups g).1 hg).1
    obtain ⟨members, hgroup, hperm⟩ := hr.members g hg'
    rw [hgroup] at hq ⊢
    rw [hproc] at hlive ⊢
    rw [hr.host]
    exact h.child g hg' q (List.mem_of_mem_erase (hperm.mem_iff.1 hq)) hlive

/-! ## The host group of a new child -/

section HostGroup

variable {g : GroupPtr} {child : HostPid}

theorem emblaSpawnMember_hostGroup (hmem : (e.group g).processes.length < processGroupInitialCapacity)
    (hid : (e.process p).groupId = (e.group g).id) (hnot : p ∉ (e.group g).processes)
    (hnew : (e.process p).state = .created) (hf : e.host.forks.head = some child)
    (hs : e.host.setpgids.head ≠ .error) (hq : e.scheduler.count < schedulerInitialCapacity) :
    ((emblaSpawnMember g p e).2.group g).hostId = childGroup child.pid (e.group g).hostId := by
  have hself : ((e.modifyGroup g fun _ => (e.group g).withMembers ((e.group g).processes ++ [p])).group g).hostId =
      (e.group g).hostId := by
    rw [group_modifyGroup_self]
    rfl
  have hhost := emblaSpawnHost_ok (e := e.modifyGroup g fun _ => (e.group g).withMembers ((e.group g).processes ++ [p]))
    hf hs hnew hq g (e.process p).id
  unfold emblaSpawnMember
  simp only [processGroupAdd_ok hmem hid hnot, ne_eq, not_true_eq_false, if_false]
  rw [hhost]
  simp only [group, Heap.read_modify_self]
  exact congrArg (childGroup child.pid) hself

theorem emblaSpawnInternal_hostGroup {groupId : Nat}
    (hget : processGroupManagerGet e.groupHeap e.processGroupManager groupId = some g)
    (hid : (e.group g).id = groupId) (hold : ∀ q ∈ (e.group g).processes, q < e.processHeap.next) (hroom : e.Room g)
    (hf : e.host.forks.head = some child) (parentId : Nat) (name : String) :
    ((emblaSpawnInternal parentId groupId name e).2.group g).hostId = childGroup child.pid (e.group g).hostId := by
  have hcap := hroom.cap
  unfold ProcessGroup.CapReached at hcap
  unfold emblaSpawnInternal
  rw [hget]
  simp only [if_neg hcap, createProcess_ok hroom.table]
  subst hid
  exact emblaSpawnMember_hostGroup (g := g) (p := e.processHeap.next) (e := { e with
      processHeap := (e.processHeap.alloc (processCreate e.processManager.nextPid parentId (e.group g).id name)).2
      processManager := { e.processManager with
        processes := e.processManager.processes ++ [e.processHeap.next]
        nextPid := e.processManager.nextPid + 1 }
      host := { e.host with allocs := e.host.allocs.tail.tail } })
    hroom.members (by simp [Embla.process, Embla.group, processCreate]) (fun h => absurd (hold _ h) (lt_irrefl _))
    (by simp [Embla.process, processCreate]) hf hroom.fork.2 hroom.queue

/-- The leader of a new group gives it its pid for a host id. -/
theorem emblaSpawn_hostGroup (h : e.Inv) (hs : e.Spawnable) (hf : e.host.forks.head = some child) (name : String) :
    ((emblaSpawn name e).2.group e.groupHeap.next).hostId =
      childGroup child.pid (e.withNewGroup.group e.groupHeap.next).hostId := by
  have hroom := hs.1.groupRoom
  obtain ⟨-, hget⟩ := withNewGroup_get h hroom
  have hid : (e.withNewGroup.group e.groupHeap.next).id = e.processGroupManager.nextId := by
    rw [withNewGroup_group]
    rfl
  have hold : ∀ q ∈ (e.withNewGroup.group e.groupHeap.next).processes, q < e.withNewGroup.processHeap.next := by
    rw [withNewGroup_group]
    exact fun q hq => absurd hq List.not_mem_nil
  have hinternal := emblaSpawnInternal_hostGroup hget hid hold hs.room hf emblaRootPid name
  obtain ⟨e', hx, -⟩ := emblaSpawnInternal_ok hget hid hold hs.room emblaRootPid name
  rw [hx] at hinternal
  rw [emblaSpawn_eq hroom, hx]
  exact hinternal

end HostGroup

theorem Covered.spawn (h : e.Covered) (hinv : e.Inv) (hfree : e.PidFree) (name : String) :
    (emblaSpawn name e).2.Covered := by
  by_cases hs : e.Spawnable
  · have hhost : ∀ child, e.host.forks.head = some child → ((emblaSpawn name e).2.group e.groupHeap.next).hostId =
        childGroup child.pid (e.withNewGroup.group e.groupHeap.next).hostId :=
      fun child hf => emblaSpawn_hostGroup hinv hs hf name
    obtain ⟨e', hx, hl⟩ := emblaSpawn_launched hinv hs name
    rw [hx] at hhost ⊢
    -- the group made first is empty and touches nobody
    have hnew : e.withNewGroup.Covered := by
      refine ⟨h.pids, fun g hg p hp hlive => ?_⟩
      have hmem : g ∈ e.processGroupManager.groups ∨ g = e.groupHeap.next := by simpa [withNewGroup] using hg
      rcases hmem with hg | rfl
      · have hgroup : e.withNewGroup.group g = e.group g :=
          Heap.read_alloc_of_ne _ _ fun hc => absurd (hinv.groupTable.keyed.alloc g hg) (by lia)
        rw [hgroup] at hp ⊢
        exact h.child g hg p hp hlive
      · rw [withNewGroup_group] at hp
        exact absurd hp List.not_mem_nil
    refine hnew.spawned (hinv.withNewGroup hs.1.groupRoom) hfree hl hhost fun hne => ?_
    rw [withNewGroup_group] at hne
    exact absurd rfl hne
  · obtain ⟨e', hx, hsame, hproc, -, -, hgroups⟩ := emblaSpawn_failed hinv hs name
    have hcalls : e.host.Attempted (emblaSpawn name e).2.host := emblaSpawn_attempted (by rw [hx])
    rw [hx] at hcalls ⊢
    exact h.unspawned hinv hfree hsame hproc hgroups hcalls

theorem Covered.spawnChild (h : e.Covered) (hs : e.Sound) (hfree : e.PidFree) {parent : ProcessPtr}
    (hp : e.Tracked parent) (name : String) : (emblaSpawnChild parent name e).2.Covered := by
  obtain ⟨g, hg, hm, ⟨hroom, e', hx, hspawned⟩ | ⟨-, e', hx, hu⟩⟩ := emblaSpawnChild_cases hs.inv hp name
  · have hhost : ∀ child, e.host.forks.head = some child →
        ((emblaSpawnChild parent name e).2.group g).hostId = childGroup child.pid (e.group g).hostId := by
      intro child hf
      have hid := (hs.inv.member g hg parent hm).2
      have hget := hs.inv.groupTable.get hg
      rw [show (e.groupHeap.read g).id = (e.process parent).groupId from hid.symm] at hget
      have hvalid : (e.process parent).groupId ≠ emblaInvalidPgid := by
        intro hc
        unfold emblaSpawnChild at hx
        rw [if_pos hc] at hx
        cases hx
      unfold emblaSpawnChild
      rw [if_neg hvalid]
      exact emblaSpawnInternal_hostGroup hget hid.symm (fun q hq => hs.inv.alloc (hs.inv.member g hg q hq).1) hroom hf _ name
    rw [hx] at hhost ⊢
    exact h.spawned hs.inv hfree hspawned hhost fun _ => (hs.formed g hg).hostId
  · have hcalls : e.host.Attempted (emblaSpawnChild parent name e).2.host := emblaSpawnChild_attempted (by rw [hx])
    rw [hx] at hcalls ⊢
    exact h.unspawned hs.inv hfree (hu.sameTables hs.inv) hu.others (fun g' _ => unspawned_group hs hg hu g') hcalls

/-! ## Polling -/

theorem Covered.heard (h : e.Covered) (hinv : e.Inv) (hclear : e.Unmistaken) (hh : Heard e e') : e'.Covered := by
  cases hh with
  | told event hw ht hx => exact h.told hinv hclear hw ht hx
  | silent hw hx =>
    rw [hx]
    exact h.called ⟨_, rfl⟩ fun _ _ => by rw [polled_trace_silent hw]

end Embla

end EmblaOs
