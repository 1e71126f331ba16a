/-
Whom a group signal reaches. The host delivers it to every child in the host group that the record names.
As long as fork hands out no id that a process or a group of the tables still goes by, these are the
children of the group's own live members: the tracked groups go by different ids, and whoever is forked
into one of them and not collected is a live member of it.
-/
import EmblaOs.Process.Accounts
import EmblaOs.Process.Signals

namespace EmblaOs

open Lib

section Calls

variable {calls : List HostCall} {pid child target : Int} {event : ChildEvent}

/-- A call that says nothing of the child. -/
theorem uncollected_cons {call : HostCall} (hc : call.child pid = none) :
    Uncollected (call :: calls) pid ↔ Uncollected calls pid :=
  exists_congr fun _ => hasChild_cons hc

theorem uncollected_forked (h : Uncollected (.forked child target :: calls) pid) :
    pid = child ∨ Uncollected calls pid := by
  rcases eq_or_ne child pid with rfl | hne
  · exact .inl rfl
  · exact .inr (h.imp fun group => (hasChild_fork_other hne target).1)

theorem not_uncollected_collected : ¬ Uncollected (.collected pid :: calls) pid := by
  rintro ⟨group, h⟩
  simp [HasChild, HostCall.child] at h

theorem uncollected_reported (h : Uncollected (.reported event :: calls) pid) :
    ¬ (event.hostId.pid = pid ∧ event.status.Death) ∧ Uncollected calls pid := by
  by_cases hdeath : event.hostId.pid = pid ∧ event.status.Death
  · obtain ⟨group, h⟩ := h
    simp [HasChild, HostCall.child, hdeath] at h
  · exact ⟨hdeath, h.imp fun group => (hasChild_report_other hdeath).1⟩

theorem uncollected_takenBack {h h' : Host} (ht : h.TakenBack h') (hc : Uncollected h'.trace pid) :
    Uncollected h.trace pid := by
  rcases ht with hx | ⟨child, group, hx⟩ <;> rw [hx] at hc
  · exact hc
  · rcases eq_or_ne child pid with rfl | hne
    · exact absurd hc not_uncollected_collected
    · have hcollected : HostCall.child pid (.collected child) = none := if_neg hne
      have hforked := (uncollected_cons rfl).1 ((uncollected_cons hcollected).1 hc)
      exact (uncollected_forked hforked).resolve_left hne.symm

/-- The calls of a signal. -/
theorem uncollected_signalled {op : SignalOp} {e e' : Embla} (hc : Embla.Called op e e') (hspawns : ¬ op.Spawns)
    (hpolls : ¬ op.Polls) : Uncollected e'.host.trace pid ↔ Uncollected e.host.trace pid := by
  cases hc with
  | nothing hx => rw [hx]
  | attempted hop => exact absurd hop hspawns
  | forked hop => exact absurd hop hspawns
  | reported hop => exact absurd hop hpolls
  | killed p hp signal answer hx =>
    rw [hx]
    exact uncollected_cons rfl
  | killedGroup g hg signal hop answer hx =>
    rw [hx]
    exact uncollected_cons rfl

end Calls

namespace Embla

/-- The pid that the next fork hands out is the host id of no group in the table. -/
def FreshGroup (e : Embla) : Prop :=
  ∀ child, e.host.forks.head = some child → ∀ g ∈ e.processGroupManager.groups, (e.group g).hostId ≠ child.pid

/-- Every child that has not been collected is that of a live process. -/
def Held (e : Embla) : Prop := ∀ pid, Uncollected e.host.trace pid → ∃ p, e.Alive p ∧ (e.process p).hostId = pid

/-- No two groups go by the same host id. -/
def Apart (e : Embla) : Prop :=
  ∀ g ∈ e.processGroupManager.groups, ∀ g' ∈ e.processGroupManager.groups,
    (e.group g).hostId = (e.group g').hostId → g = g'

end Embla

/-- Fork hands out no id that the tables still hold, and takes back a child when asked to. -/
def SignalOp.Undisturbed (e : Embla) (op : SignalOp) : Prop :=
  op.Fresh e ∧ (op.Spawns → e.FreshGroup ∧ e.host.CanTakeBack)

namespace Embla

variable {e e' : Embla} {p : ProcessPtr} {g : GroupPtr} {op : SignalOp}

/-! ## Every child is held -/

/-- No child more, and whoever was alive still is. -/
theorem Held.kept (h : e.Held) (hcalls : ∀ pid, Uncollected e'.host.trace pid → Uncollected e.host.trace pid)
    (hsame : ∀ p, e.Alive p → (e.process p).SameAccount (e'.process p)) (htracked : ∀ p, e.Alive p → e'.Tracked p) :
    e'.Held := by
  intro pid hpid
  obtain ⟨p, hp, rfl⟩ := h pid (hcalls pid hpid)
  exact ⟨p, ⟨htracked p hp, fun hc => hp.2 ((hsame p hp).dead.1 hc)⟩, (hsame p hp).hostId⟩

theorem Held.spawned (h : e.Held) (hinv : e.Inv) (hu : Unreported e e') {e₀ : Embla} {parentId : Nat} {name : String}
    (hs : Spawned parentId name g e₀ e') (htable : e₀.processManager = e.processManager)
    (htrace : e₀.host.trace = e.host.trace) : e'.Held := by
  obtain ⟨child, -, hnew, -, hx⟩ := hs.record
  have htracked : ∀ q, e.Tracked q → e'.Tracked q := by
    intro q hq
    refine (hs.tracked q).2 (.inl ?_)
    unfold Tracked
    rw [htable]
    exact hq
  intro pid hpid
  rw [hx, htrace] at hpid
  rcases uncollected_forked hpid with rfl | hold
  · refine ⟨e₀.processHeap.next, ⟨(hs.tracked _).2 (.inr rfl), ?_⟩, ?_⟩
    · rw [hnew]
      exact fun hc => by cases hc
    · rw [hnew]
  · obtain ⟨p, hp, rfl⟩ := h pid hold
    have hsame := hu.account p (hinv.alloc hp.1)
    exact ⟨p, ⟨htracked p hp.1, fun hc => hp.2 (hsame.dead.1 hc)⟩, hsame.hostId⟩

theorem Held.refused (h : e.Held) (hinv : e.Inv) (hu : Unreported e e') (hsame : SameTables e e')
    (ha : e.host.Attempted e'.host) (hback : e.host.CanTakeBack) : e'.Held :=
  h.kept (fun _ => uncollected_takenBack (ha.takenBack hback)) (fun p hp => hu.account p (hinv.alloc hp.1))
    fun p hp => (hsame.tracked p).2 hp.1

theorem Held.spawn (h : e.Held) (hinv : e.Inv) (hback : e.host.CanTakeBack) (name : String) :
    (emblaSpawn name e).2.Held := by
  have hu := unreported_spawn hinv name
  by_cases hs : e.Spawnable
  · obtain ⟨e₁, hx, hl⟩ := emblaSpawn_launched hinv hs name
    rw [hx] at hu ⊢
    exact h.spawned hinv hu hl rfl rfl
  · obtain ⟨e₁, hx, hsame, -⟩ := emblaSpawn_failed hinv hs name
    have ha : e.host.Attempted (emblaSpawn name e).2.host := emblaSpawn_attempted (by rw [hx])
    rw [hx] at hu ha ⊢
    exact h.refused hinv hu hsame ha hback

theorem Held.spawnChild (h : e.Held) (hinv : e.Inv) (hback : e.host.CanTakeBack) {parent : ProcessPtr}
    (hp : e.Tracked parent) (name : String) : (emblaSpawnChild parent name e).2.Held := by
  have hu := unreported_spawnChild hinv hp name
  obtain ⟨g, -, -, ⟨-, e₁, hx, hs⟩ | ⟨-, e₁, hx, hun⟩⟩ := emblaSpawnChild_cases hinv hp name
  · rw [hx] at hu ⊢
    exact h.spawned hinv hu hs rfl rfl
  · have ha : e.host.Attempted (emblaSpawnChild parent name e).2.host := emblaSpawnChild_attempted (by rw [hx])
    rw [hx] at hu ha ⊢
    exact h.refused hinv hu (hun.sameTables hinv) ha hback

/-- The death of a child is shown by the process whose child it was. -/
theorem Held.listened (h : e.Held) (hl : Listened e e') : e'.Held := by
  cases hl.heard with
  | told event hw ht hx =>
    intro pid hpid
    rw [hx] at hpid
    obtain ⟨hother, hold⟩ := uncollected_reported hpid
    obtain ⟨p, hp, rfl⟩ := h pid hold
    have hsame : (e.process p).SameAccount (e'.process p) := by
      refine hl.same fun event' hw' hd hget => hother ?_
      obtain rfl : event = event' := Wait4Answer.event.inj (hw.symm.trans hw')
      exact ⟨(getByHostId_some hget).2.1.symm, hd⟩
    exact ⟨p, ⟨(hl.handled.tracked p).2 hp.1, fun hc => hp.2 (hsame.dead.1 hc)⟩, hsame.hostId⟩
  | silent hw hx =>
    refine h.kept (fun pid hpid => ?_) (fun p _ => hl.same fun event hw' => absurd hw' (hw event))
      fun p hp => (hl.handled.tracked p).2 hp.1
    rw [hx] at hpid
    rwa [polled_trace_silent hw] at hpid

theorem Held.reaped (h : e.Held) (hr : Reaped p e e') (hdead : (e.process p).state = .terminated) : e'.Held := by
  have hsame : ∀ q, (e.process q).SameAccount (e'.process q) := by
    intro q
    rw [hr.process]
    exact .refl _
  refine h.kept (fun pid hpid => by rwa [hr.host] at hpid) (fun q _ => hsame q) fun q hq => (hr.tracked q).2 ⟨hq.1, ?_⟩
  rintro rfl
  exact hq.2 hdead

theorem Held.exec (h : e.Held) (hs : e.Sound) (hop : op.Undisturbed e) (hx : op.exec e = some e') : e'.Held := by
  have hinv := hs.inv
  have hcalled : ¬ op.Spawns → ¬ op.Polls → e.OnlyHost e' → e'.Held := by
    intro hspawns hpolls ho
    have hcalls : ∀ pid, Uncollected e'.host.trace pid → Uncollected e.host.trace pid := fun pid =>
      (uncollected_signalled (hs.called hop.1.1 hx) hspawns hpolls).1
    obtain ⟨host, rfl⟩ := ho
    exact h.kept hcalls (fun p _ => .refl _) fun p hp => hp.1
  cases op with
  | spawn name =>
    cases hx
    exact h.spawn hinv (hop.2 trivial).2 name
  | spawnChild parent name =>
    cases hx
    exact h.spawnChild hinv (hop.2 trivial).2 hop.1.1 name
  | handleEvent =>
    cases hx
    exact h.listened ⟨handleNext_heard e, handleNext_measured hinv⟩
  | drainEvent =>
    cases hx
    exact h.listened ⟨drain_heard e, drain_measured e⟩
  | reapChild parentId =>
    cases hx
    rcases emblaReapChild_target hinv parentId with ⟨-, he⟩ | ⟨p, e₁, -, -, hdead, he, hr, -⟩ <;> rw [he]
    · exact h
    · exact h.reaped hr hdead
  | reapProcess processId =>
    cases hx
    rcases emblaReapProcess_target hinv processId with ⟨-, he⟩ | ⟨p, e₁, -, -, hdead, he, hr⟩ <;> rw [he]
    · exact h
    · exact h.reaped hr hdead
  | terminate process =>
    cases hx
    exact hcalled id id (emblaTerminate_host process e)
  | kill process =>
    cases hx
    exact hcalled id id (emblaKill_host process e)
  | stopProcess process =>
    cases hx
    exact hcalled id id (emblaStopProcess_host process e)
  | continueProcess process =>
    cases hx
    exact hcalled id id (emblaContinueProcess_host process e)
  | signalGroup group signal =>
    cases hx
    exact hcalled id id (emblaSignalGroup_host group signal e)

/-! ## The groups go by different ids -/

theorem Apart.kept (h : e.Apart) (hgroups : ∀ g ∈ e'.processGroupManager.groups,
    g ∈ e.processGroupManager.groups ∧ (e'.group g).hostId = (e.group g).hostId) : e'.Apart := by
  intro g hg g' hg' hid
  obtain ⟨hold, hsame⟩ := hgroups g hg
  obtain ⟨hold', hsame'⟩ := hgroups g' hg'
  exact h g hold g' hold' (hsame.symm.trans (hid.trans hsame'))

/-- The new group goes by the pid of its first child. -/
theorem Apart.spawn (h : e.Apart) (hinv : e.Inv) (hfresh : e.FreshGroup) (name : String) :
    (emblaSpawn name e).2.Apart := by
  by_cases hs : e.Spawnable
  swap
  · obtain ⟨e', hx, hsame, -, -, -, hgroups⟩ := emblaSpawn_failed hinv hs name
    rw [hx]
    refine h.kept fun g hg => ?_
    rw [hsame.groups] at hg
    exact ⟨hg, by rw [hgroups g hg]⟩
  have hhost : ∀ child, e.host.forks.head = some child → ((emblaSpawn name e).2.group e.groupHeap.next).hostId =
      childGroup child.pid (e.withNewGroup.group e.groupHeap.next).hostId :=
    fun child hf => emblaSpawn_hostGroup hinv hs hf name
  obtain ⟨e', hx, hl⟩ := emblaSpawn_launched hinv hs name
  rw [hx] at hhost ⊢
  obtain ⟨child, hf, -⟩ := Spawned.record hl
  have hnew : (e'.group e.groupHeap.next).hostId = child.pid := by
    refine (hhost child hf).trans ?_
    rw [withNewGroup_group]
    rfl
  have hapart : ∀ g ∈ e.processGroupManager.groups, e'.group g = e.group g →
      (e'.group g).hostId ≠ (e'.group e.groupHeap.next).hostId := by
    intro g hg hold
    rw [hold, hnew]
    exact hfresh child hf g hg
  intro g hg g' hg' hid
  rcases Launched.group_cases hinv hl hg with ⟨hold, hsame⟩ | ⟨rfl, -⟩ <;>
    rcases Launched.group_cases hinv hl hg' with ⟨hold', hsame'⟩ | ⟨rfl, -⟩
  · rw [hsame, hsame'] at hid
    exact h g hold g' hold' hid
  · exact absurd hid (hapart g hold hsame)
  · exact absurd hid.symm (hapart g' hold' hsame')
  · rfl

/-- A child that joins a group leaves its host id as it is. -/
theorem emblaSpawnChild_hostGroup (hs : e.Sound) {parent : ProcessPtr} (hg : g ∈ e.processGroupManager.groups)
    (hm : parent ∈ (e.group g).processes) (hroom : e.Room g) {child : HostPid} (hf : e.host.forks.head = some child)
    (name : String) : ((emblaSpawnChild parent name e).2.group g).hostId = (e.group g).hostId := by
  have hid := (hs.inv.member g hg parent hm).2
  have hget := hs.inv.groupTable.get hg
  rw [show (e.groupHeap.read g).id = (e.process parent).groupId from hid.symm] at hget
  have hvalid : (e.process parent).groupId ≠ emblaInvalidPgid := by
    intro hc
    rw [hc] at hget
    cases hget
  unfold emblaSpawnChild
  rw [if_neg hvalid]
  refine (emblaSpawnInternal_hostGroup hget hid.symm (fun q hq => hs.inv.alloc (hs.inv.member g hg q hq).1) hroom hf _
    name).trans ?_
  exact if_neg (hs.formed g hg).hostId

theorem Apart.spawnChild (h : e.Apart) (hs : e.Sound) {parent : ProcessPtr} (hp : e.Tracked parent) (name : String) :
    (emblaSpawnChild parent name e).2.Apart := by
  obtain ⟨g, hg, hm, ⟨hroom, e', hx, hspawned⟩ | ⟨-, e', hx, hu⟩⟩ := emblaSpawnChild_cases hs.inv hp name
  · obtain ⟨child, hf, -⟩ := hspawned.record
    have hhost := emblaSpawnChild_hostGroup hs hg hm hroom hf name
    rw [hx] at hhost ⊢
    refine h.kept fun g' hg' => ?_
    rw [hspawned.groupManager] at hg'
    rcases eq_or_ne g' g with rfl | hne
    · exact ⟨hg', hhost⟩
    · exact ⟨hg', by rw [hspawned.groups g' hne]⟩
  · rw [hx]
    refine h.kept fun g' hg' => ?_
    rw [(hu.sameTables hs.inv).groups] at hg'
    exact ⟨hg', by rw [unspawned_group hs hg hu g']⟩

theorem Apart.reaped (h : e.Apart) (hr : Reaped p e e') : e'.Apart := by
  refine h.kept fun g hg => ?_
  have hold := ((hr.groups g).1 hg).1
  obtain ⟨members, hx, -⟩ := hr.members g hold
  rw [hx]
  exact ⟨hold, rfl⟩

theorem Apart.heard (h : e.Apart) (hh : Heard e e') : e'.Apart := by
  cases hh with
  | told event hw ht =>
    refine h.kept fun g hg => ?_
    rw [ht.handled.groupManager] at hg
    exact ⟨hg, by rw [ht.handled.group]⟩
  | silent hw hx =>
    rw [hx]
    exact h

theorem Apart.exec (h : e.Apart) (hs : e.Sound) (hop : op.Undisturbed e) (hx : op.exec e = some e') : e'.Apart := by
  cases effect hs.inv hx with
  | spawned name hspawn he =>
    subst hspawn he
    exact h.spawn hs.inv (hop.2 trivial).1 name
  | spawnedChild parent name hspawn he =>
    subst hspawn he
    exact h.spawnChild hs hop.1.1 name
  | heard hpolls hh => exact h.heard hh
  | reaped p hr => exact h.reaped hr
  | hostOnly hspawns hpolls ho =>
    obtain ⟨host, rfl⟩ := ho
    exact h

/-! ## A signal to a group -/

/-- The groups partition the children that have not been collected. -/
structure Reaching (e : Embla) : Prop where
  sound : e.Sound
  pids : e.DistinctPids
  covered : e.Covered
  held : e.Held
  apart : e.Apart

theorem reaching_create {host : Host} (ht : host.trace = []) : (emblaCreate host).Reaching := by
  refine ⟨sound_create host, fun p _ hp => absurd hp List.not_mem_nil, covered_create host, fun pid hpid => ?_,
    fun g hg => absurd hg List.not_mem_nil⟩
  obtain ⟨group, hc⟩ := hpid
  rw [show (emblaCreate host).host.trace = [] from ht] at hc
  cases hc

theorem Reaching.exec (h : e.Reaching) (hop : op.Undisturbed e) (hx : op.exec e = some e') : e'.Reaching :=
  ⟨h.sound.signalOp hop.1.1 hx, h.pids.exec h.sound.inv hop.1 hx,
    h.covered.exec h.sound (hop.1.clear h.pids) hx, h.held.exec h.sound hop hx, h.apart.exec h.sound hop hx⟩

/-- Whoever is in the host group of a group is a live member of it. -/
theorem Reaching.hasChild_iff (h : e.Reaching) (hg : g ∈ e.processGroupManager.groups) (pid : Int) :
    HasChild e.host.trace pid (e.group g).hostId ↔
      ∃ p ∈ (e.group g).processes, (e.process p).state ≠ .terminated ∧ (e.process p).hostId = pid := by
  constructor
  · intro hc
    obtain ⟨p, hp, rfl⟩ := h.held pid ⟨_, hc⟩
    obtain ⟨g', hg', hm⟩ := h.sound.inv.grouped p hp.1
    have hc' := h.covered.child g' hg' p hm hp.2
    obtain rfl : g' = g := h.apart g' hg' g hg (Option.some.inj (Option.some.inj (hc'.symm.trans hc)))
    exact ⟨p, hm, hp.2, rfl⟩
  · rintro ⟨p, hm, hlive, rfl⟩
    exact h.covered.child g hg p hm hlive

/-- In every run on a host that hands out no id the tables still hold: a signal to a tracked group is sent
to its host id, and the children in that host group are those of the live members, each a child of one
member; every child that has not been collected is in the host group of exactly one tracked group. -/
theorem group_signal_reaches_live_members {host : Host} (ht : host.trace = [])
    (h : Runs SignalOp.exec SignalOp.Undisturbed (emblaCreate host) e) :
    (∀ g ∈ e.processGroupManager.groups,
      (∀ signal, ∃ answer, (emblaSignalGroup g signal e).2.host.trace =
        .killedGroup (e.group g).hostId signal answer :: e.host.trace) ∧
      ∀ pid, HasChild e.host.trace pid (e.group g).hostId ↔
        ∃! p, p ∈ (e.group g).processes ∧ (e.process p).state ≠ .terminated ∧ (e.process p).hostId = pid) ∧
    ∀ pid, Uncollected e.host.trace pid →
      ∃! g, g ∈ e.processGroupManager.groups ∧ HasChild e.host.trace pid (e.group g).hostId := by
  have hall : e.Reaching :=
    h.holds (I := Reaching) (fun _ _ _ hI hop hx => hI.exec hop hx) (reaching_create ht)
  refine ⟨fun g hg => ⟨fun signal => ?_, fun pid => ?_⟩, fun pid hpid => ?_⟩
  · exact ⟨_, emblaSignalGroup_trace (hall.sound.formed g hg).hostId signal⟩
  · rw [hall.hasChild_iff hg pid]
    constructor
    · rintro ⟨p, hm, hlive, rfl⟩
      refine ⟨p, ⟨hm, hlive, rfl⟩, fun q hq => ?_⟩
      obtain ⟨hqm, -, hqp⟩ := hq
      exact hall.pids q p (hall.sound.inv.member g hg q hqm).1 (hall.sound.inv.member g hg p hm).1 hqp
    · rintro ⟨p, ⟨hm, hlive, hp⟩, -⟩
      exact ⟨p, hm, hlive, hp⟩
  · obtain ⟨p, hp, rfl⟩ := hall.held pid hpid
    obtain ⟨g, hg, hm⟩ := hall.sound.inv.grouped p hp.1
    have hc := hall.covered.child g hg p hm hp.2
    refine ⟨g, ⟨hg, hc⟩, fun g' hg' => ?_⟩
    exact hall.apart g' hg'.1 g hg (Option.some.inj (Option.some.inj (hg'.2.symm.trans hc)))

end Embla

/-- Two groups, the first with a second member. -/
def twoGroups : Embla :=
  let second := (emblaSpawn "second" (emblaSpawn "first" (emblaCreate (.generous [] [] 0))).2).2
  (emblaSpawnChild 0 "helper" second).2

theorem group_signal_reaches_live_members_of_first :
    (∃! p, p ∈ (twoGroups.group 0).processes ∧ (twoGroups.process p).state ≠ .terminated ∧
      (twoGroups.process p).hostId = 3) ∧
    ¬ HasChild twoGroups.host.trace 2 (twoGroups.group 0).hostId := by
  have hnext : ∀ (e : Embla) (n : Int), (∀ child, e.host.forks.head = some child → child.pid = n) →
      (∀ p ∈ e.processManager.processes, (e.process p).hostId ≠ n) →
      (∀ g ∈ e.processGroupManager.groups, (e.group g).hostId ≠ n) → e.FreshFork ∧ e.FreshGroup := by
    intro e n hn hp hg
    constructor
    · intro child hf p htracked
      rw [hn child hf]
      exact hp p htracked
    · intro child hf g hin
      rw [hn child hf]
      exact hg g hin
  have h₁ := hnext (emblaCreate (.generous [] [] 0)) 1 (fun child hf => by cases hf; rfl) (by decide +kernel)
    (by decide +kernel)
  have h₂ := hnext (emblaSpawn "first" (emblaCreate (.generous [] [] 0))).2 2 (fun child hf => by cases hf; rfl)
    (by decide +kernel) (by decide +kernel)
  have h₃ := hnext (emblaSpawn "second" (emblaSpawn "first" (emblaCreate (.generous [] [] 0))).2).2 3
    (fun child hf => by cases hf; rfl) (by decide +kernel) (by decide +kernel)
  have hparent : (emblaSpawn "second" (emblaSpawn "first" (emblaCreate (.generous [] [] 0))).2).2.Tracked 0 := by
    unfold Embla.Tracked
    decide +kernel
  have hrun : Runs SignalOp.exec SignalOp.Undisturbed (emblaCreate (.generous [] [] 0)) twoGroups :=
    (((Runs.refl _).next (.spawn "first") ⟨⟨trivial, fun _ => h₁.1⟩, fun _ => ⟨h₁.2, rfl, rfl⟩⟩ rfl).next
      (.spawn "second") ⟨⟨trivial, fun _ => h₂.1⟩, fun _ => ⟨h₂.2, rfl, rfl⟩⟩ rfl).next
      (.spawnChild 0 "helper") ⟨⟨hparent, fun _ => h₃.1⟩, fun _ => ⟨h₃.2, rfl, rfl⟩⟩ rfl
  obtain ⟨hgroups, -⟩ := Embla.group_signal_reaches_live_members rfl hrun
  obtain ⟨-, hreached⟩ := hgroups 0 (by decide +kernel)
  refine ⟨(hreached 3).1 ?_, fun hc => ?_⟩
  · unfold HasChild
    decide +kernel
  · unfold HasChild at hc
    revert hc
    decide +kernel

end EmblaOs
