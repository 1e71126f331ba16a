/-
A runtime in step with its host. Each tracked process has a pid of its own, and its state is one
that goes with the last word on its child; the live processes are all in the scheduler. Spawning,
signalling, dispatching, reaping and every report that the child's condition allows keep this. The
state does not follow the child exactly: a process dispatched while its child is stopped counts as
running.
-/
import EmblaOs.Process.Placement

namespace EmblaOs

open Lib

/-- The states a process may be in, given the last word on its child. -/
def ChildCondition.Fits : ChildCondition → ProcessState → Prop
  | .up, state => state = .ready ∨ state = .running
  | .stopped, state => state = .stopped ∨ state = .running
  | .gone, state => state = .terminated
  | .unknown, _ => False

theorem ChildCondition.Fits.started {c : ChildCondition} {state : ProcessState} (h : c.Fits state)
    (hlive : state ≠ .terminated) : c.Fits .running := by
  cases c with
  | up => exact .inr rfl
  | stopped => exact .inr rfl
  | gone => exact absurd h hlive
  | unknown => exact h

/-- A child that has something to report belongs to a live process. -/
theorem ChildCondition.Fits.live {c : ChildCondition} {state : ProcessState} {status : WaitStatus} (h : c.Fits state)
    (ha : c.Allows status) : state ≠ .terminated := by
  rintro rfl
  cases c with
  | up => exact h.elim (fun hc => by cases hc) fun hc => by cases hc
  | stopped => exact h.elim (fun hc => by cases hc) fun hc => by cases hc
  | gone => exact ha
  | unknown => exact ha

theorem ChildCondition.Fits.stops {c : ChildCondition} {state : ProcessState} {signal : Int} (h : c.Fits state)
    (ha : c.Allows (.stopped signal)) : state = .ready ∨ state = .running := by
  cases c with
  | up => exact h
  | stopped => exact ha.elim
  | gone => exact ha.elim
  | unknown => exact ha.elim

theorem ChildCondition.Fits.continues {c : ChildCondition} {state : ProcessState} (h : c.Fits state)
    (ha : c.Allows .continued) : state = .stopped ∨ state = .running := by
  cases c with
  | up => exact ha.elim
  | stopped => exact h
  | gone => exact ha.elim
  | unknown => exact ha.elim

namespace Embla

structure Steady (e : Embla) : Prop where
  inv : e.Inv
  allocs : ∀ n, e.host.allocs.get n = true
  placed : ∃ q, e.Placed q
  pids : ∀ p q, e.Tracked p → e.Tracked q → (e.process p).hostId = (e.process q).hostId → p = q
  fits : ∀ p, e.Tracked p → (e.host.condition (e.process p).hostId).Fits (e.process p).state

variable {e e' : Embla} {p : ProcessPtr}

theorem steady_create {host : Host} (halloc : ∀ n, host.allocs.get n = true) : (emblaCreate host).Steady :=
  ⟨inv_create host, halloc, ⟨[], placed_create host⟩, fun _ _ hp => absurd hp List.not_mem_nil,
    fun _ hp => absurd hp List.not_mem_nil⟩

theorem Steady.withState (h : e.Steady) (state : EmblaState) : Steady { e with state := state } := by
  obtain ⟨q, hq⟩ := h.placed
  exact ⟨⟨h.inv.table, h.inv.groupTable, h.inv.membersNodup, h.inv.member, h.inv.grouped, h.inv.started, h.inv.queue⟩,
    h.allocs, ⟨q, hq.queue, hq.nodup, hq.mem⟩, h.pids, h.fits⟩

/-- Host calls that say nothing of a tracked child. -/
theorem Steady.onlyHost (h : e.Steady) (ho : e.OnlyHost e') (halloc : ∀ n, e'.host.allocs.get n = true)
    (hcond : ∀ p, e.Tracked p → e'.host.condition (e.process p).hostId = e.host.condition (e.process p).hostId) :
    e'.Steady := by
  have hinv := ho.inv h.inv
  obtain ⟨host, rfl⟩ := ho
  obtain ⟨q, hq⟩ := h.placed
  refine ⟨hinv, halloc, ⟨q, hq.congr rfl (fun _ => Iff.rfl) fun _ _ => Iff.rfl⟩, h.pids, fun p hp => ?_⟩
  rw [show (Embla.process { e with host := host } p) = e.process p from rfl, hcond p hp]
  exact h.fits p hp

theorem Steady.moved (h : e.Steady) (ho : e.OnlyHost e') (hm : e.host.Moves none e'.host) : e'.Steady :=
  h.onlyHost ho (hm.allocs h.allocs) fun _ _ => hm.condition _ fun _ hc => by cases hc

/-! ## Spawning -/

/-- The pid that the next fork hands out is not that of a tracked process. -/
def FreshFork (e : Embla) : Prop :=
  ∀ child, e.host.forks.head = some child → ∀ p, e.Tracked p → (e.process p).hostId ≠ child.pid

def DistinctPids (e : Embla) : Prop :=
  ∀ p q, e.Tracked p → e.Tracked q → (e.process p).hostId = (e.process q).hostId → p = q

/-- No process more, and every pid the same. -/
theorem DistinctPids.congr (h : e.DistinctPids) (ht : ∀ p, e'.Tracked p → e.Tracked p)
    (hid : ∀ p, e.Tracked p → (e'.process p).hostId = (e.process p).hostId) : e'.DistinctPids := by
  intro p q hp hq hpq
  rw [hid p (ht p hp), hid q (ht q hq)] at hpq
  exact h p q (ht p hp) (ht q hq) hpq

theorem DistinctPids.spawned (h : e.DistinctPids) (hinv : e.Inv) (hfresh : e.FreshFork) {parentId : Nat} {name : String}
    {g : GroupPtr} (hs : Spawned parentId name g e e') : e'.DistinctPids := by
  obtain ⟨pid, hf, hnew, -⟩ := hs.record
  have hnewId : (e'.process e.processHeap.next).hostId = pid.pid := by rw [hnew]
  have hold : ∀ p, e.Tracked p → (e'.process p).hostId ≠ pid.pid := by
    intro p hp
    rw [hs.old hinv hp]
    exact hfresh pid hf p hp
  intro a b ha hb hab
  rcases (hs.tracked a).1 ha with ha | rfl <;> rcases (hs.tracked b).1 hb with hb | rfl
  · rw [hs.old hinv ha, hs.old hinv hb] at hab
    exact h a b ha hb hab
  · exact absurd (hab.trans hnewId) (hold a ha)
  · exact absurd (hab.symm.trans hnewId) (hold b hb)
  · rfl

theorem DistinctPids.unspawned (h : e.DistinctPids) (hinv : e.Inv) (hsame : SameTables e e')
    (hproc : ∀ p < e.processHeap.next, e'.process p = e.process p) : e'.DistinctPids := by
  refine h.congr (fun p hp => ?_) fun p hp => by rw [hproc p (hinv.alloc hp)]
  rwa [hsame.tracked] at hp

theorem DistinctPids.reaped (h : e.DistinctPids) (hr : Reaped p e e') : e'.DistinctPids := by
  refine h.congr (fun q hq => ((hr.tracked q).1 hq).1) fun q _ => ?_
  rw [hr.process]

theorem Steady.spawned (h : e.Steady) (hfresh : e.FreshFork) {parentId : Nat} {name : String} {g : GroupPtr}
    (hg : g ∈ e.processGroupManager.groups) (hroom : e.Room g) (hs : Spawned parentId name g e e')
    (halloc : ∀ n, e'.host.allocs.get n = true) : e'.Steady := by
  obtain ⟨q, hq⟩ := h.placed
  obtain ⟨pid, hf, hnew, -, htrace⟩ := hs.record
  refine ⟨hs.inv h.inv hg hroom, halloc, ⟨_, hs.placed hq h.inv hroom⟩, DistinctPids.spawned h.pids h.inv hfresh hs,
    fun p hp => ?_⟩
  rcases (hs.tracked p).1 hp with hp | rfl
  · have hcond : e'.host.condition (e.process p).hostId = e.host.condition (e.process p).hostId := by
      have hne : pid.pid ≠ (e.process p).hostId := (hfresh pid hf p hp).symm
      unfold Host.condition
      rw [htrace, List.findSome?_cons]
      simp only [HostCall.condition, if_neg hne]
    rw [hs.old h.inv hp, hcond]
    exact h.fits p hp
  · rw [hnew, Host.condition_forked htrace]
    exact .inl rfl

theorem Steady.unspawned (h : e.Steady) (hfresh : e.FreshFork) (hsame : SameTables e e')
    (hproc : ∀ p < e.processHeap.next, e'.process p = e.process p) (hsched : e'.scheduler = e.scheduler)
    (hm : e.host.Moves e.host.forks.head e'.host) : e'.Steady := by
  have ht := hsame.tracked
  have hold : ∀ p, e.Tracked p → e'.process p = e.process p := fun p hp => hproc p (h.inv.alloc hp)
  obtain ⟨q, hq⟩ := h.placed
  refine ⟨?_, hm.allocs h.allocs, ⟨q, hq.congr hsched ht fun p hp => by rw [hold p hp]⟩,
    DistinctPids.unspawned h.pids h.inv hsame hproc, fun p hp => ?_⟩
  · obtain ⟨q', hq', hlt⟩ := h.inv.queue
    exact h.inv.sameTables hsame ⟨q', by rwa [hsched], fun p hp => lt_of_lt_of_le (hlt p hp) hsame.next⟩
  · rw [ht] at hp
    rw [hold p hp, hm.condition _ fun child hc hpid => hfresh child hc p hp hpid.symm]
    exact h.fits p hp

theorem Steady.withNewGroup (h : e.Steady) (hroom : e.processGroupManager.Room e.host) : e.withNewGroup.Steady := by
  obtain ⟨q, hq⟩ := h.placed
  exact ⟨h.inv.withNewGroup hroom, fun n => h.allocs (n + 2),
    ⟨q, hq.congr rfl (fun _ => Iff.rfl) fun _ _ => Iff.rfl⟩, h.pids, h.fits⟩

theorem Steady.spawn (h : e.Steady) (hfresh : e.FreshFork) (name : String) :
    (emblaSpawn name e).2.Steady ∧ (emblaSpawn name e).2.state = e.state := by
  have hm := emblaSpawn_moves name e
  by_cases hs : e.Spawnable
  · obtain ⟨e', hx, hl⟩ := emblaSpawn_launched h.inv hs name
    rw [hx] at hm ⊢
    exact ⟨(h.withNewGroup hs.1.groupRoom).spawned hfresh (by simp [Embla.withNewGroup]) hs.room hl (hm.allocs h.allocs),
      hl.state⟩
  · obtain ⟨e', hx, hsame, hproc, hsched, hstate, -⟩ := emblaSpawn_failed h.inv hs name
    rw [hx] at hm ⊢
    exact ⟨h.unspawned hfresh hsame hproc hsched hm, hstate⟩

theorem Steady.spawnChild (h : e.Steady) (hfresh : e.FreshFork) {parent : ProcessPtr} (hp : e.Tracked parent)
    (name : String) : (emblaSpawnChild parent name e).2.Steady ∧ (emblaSpawnChild parent name e).2.state = e.state := by
  have hm := emblaSpawnChild_moves parent name e
  obtain ⟨g, hg, -, ⟨hroom, e', hx, hs⟩ | ⟨-, e', hx, hu⟩⟩ := emblaSpawnChild_cases h.inv hp name
  · rw [hx] at hm ⊢
    exact ⟨h.spawned hfresh hg hroom hs (hm.allocs h.allocs), hs.state⟩
  · rw [hx] at hm ⊢
    exact ⟨h.unspawned hfresh (hu.sameTables h.inv) hu.others hu.scheduler hm, hu.state⟩

/-! ## Dispatching and reaping -/

/-- A live process is ready, running or stopped. -/
theorem Steady.live (h : e.Steady) (hp : e.Tracked p) (hlive : (e.process p).state ≠ .terminated) :
    (e.process p).state = .ready ∨ (e.process p).state = .running ∨ (e.process p).state = .stopped := by
  have hfits := h.fits p hp
  generalize e.host.condition (e.process p).hostId = c at hfits
  cases c with
  | up => exact hfits.elim .inl fun hr => .inr (.inl hr)
  | stopped => exact hfits.elim (fun hs => .inr (.inr hs)) fun hr => .inr (.inl hr)
  | gone => exact absurd hfits hlive
  | unknown => exact hfits.elim

/-- The front of the queue, if there is one, may be dispatched. -/
def FrontReady (e : Embla) : Prop := ∀ p, e.front = some p → (e.process p).state ≠ .running

/-- A live process that starts running, the scheduler being in order. -/
theorem Steady.started (h : e.Steady) (hlive : (e.process p).state ≠ .terminated) {s : Scheduler} {q : List ProcessPtr}
    (hplaced : (e.started p s).Placed q) : (e.started p s).Steady := by
  have hhostId : ∀ r, ((e.started p s).process r).hostId = (e.process r).hostId := by
    intro r
    rcases eq_or_ne r p with rfl | hne
    · rw [started_self]
    · rw [started_other e s hne]
  refine ⟨?_, h.allocs, ⟨_, hplaced⟩, DistinctPids.congr h.pids (fun _ hr => hr) fun r _ => hhostId r, fun r hr => ?_⟩
  · refine h.inv.sameTables ⟨le_refl _, rfl, ⟨le_refl _, h.inv.table.nextHi⟩, fun r hr => ?_, le_refl _, rfl,
      ⟨le_refl _, h.inv.groupTable.nextHi⟩, fun _ _ => ⟨rfl, rfl⟩⟩
      ⟨q, hplaced.queue, fun r hr => h.inv.alloc (hplaced.tracked hr).1⟩
    rcases eq_or_ne r p with rfl | hne
    · rw [started_self]
      exact ⟨rfl, rfl, fun hc => by cases hc⟩
    · rw [started_other e s hne]
      exact ⟨rfl, rfl, h.inv.started r hr⟩
  · rw [hhostId]
    rcases eq_or_ne r p with rfl | hne
    · rw [started_self]
      exact (h.fits r hr).started hlive
    · rw [started_other e s hne]
      exact h.fits r hr

/-- With nobody current, a dispatch goes through exactly when the front is not running already. -/
theorem Steady.dispatch (h : e.Steady) (hc : e.scheduler.current = none) (hcount : 0 < e.scheduler.count) :
    (e.FrontReady ∧ ∃ e', emblaDispatch e = (0, e') ∧ e'.Steady ∧ e'.scheduler.current ≠ none ∧ e'.state = e.state) ∨
    (¬ e.FrontReady ∧ ∃ e', emblaDispatch e = (-1, e') ∧ e'.Steady ∧ e'.state = e.state) := by
  obtain ⟨q, hq⟩ := h.placed
  cases q with
  | nil =>
    have := hq.count
    simp only [List.length_nil] at this
    omega
  | cons p rest =>
    have hfront : e.front = some p := hq.front
    obtain ⟨hp, hlive⟩ := hq.tracked List.mem_cons_self
    have hready : e.FrontReady ↔ (e.process p).state ≠ .running := by
      unfold FrontReady
      rw [hfront]
      exact ⟨fun hall => hall p rfl, fun hne r hr => by cases hr; exact hne⟩
    -- a running process may not start again and goes to the back
    by_cases hrun : (e.process p).state = .running
    · right
      refine ⟨fun hall => hready.1 hall hrun, ?_⟩
      obtain ⟨s, hx, hplaced⟩ := hq.dispatch_refused hc (by rw [hrun]; decide)
      refine ⟨_, hx, ⟨?_, h.allocs, ⟨_, hplaced⟩, h.pids, h.fits⟩, rfl⟩
      exact ⟨h.inv.table, h.inv.groupTable, h.inv.membersNodup, h.inv.member, h.inv.grouped, h.inv.started,
        ⟨_, hplaced.queue, fun r hr => h.inv.alloc (hplaced.tracked hr).1⟩⟩
    · left
      refine ⟨hready.2 hrun, ?_⟩
      have hst := (h.live hp hlive).imp_right fun hor => hor.resolve_left hrun
      obtain ⟨s, hx, hcur, hplaced⟩ := hq.dispatch_ok hc hst
      refine ⟨_, hx, h.started hlive hplaced, ?_, rfl⟩
      rw [show (e.started p s).scheduler.current = some p from hcur]
      exact Option.some_ne_none p

theorem Steady.reaped (h : e.Steady) (hdead : (e.process p).state = .terminated) (hr : Reaped p e e') (hinv : e'.Inv) :
    e'.Steady := by
  have hproc := hr.process
  obtain ⟨q, hq⟩ := h.placed
  refine ⟨hinv, by rw [hr.host]; exact h.allocs, ⟨q, hq.reaped hdead hr⟩, DistinctPids.reaped h.pids hr, fun r hr' => ?_⟩
  rw [hproc, hr.host]
  exact h.fits r ((hr.tracked r).1 hr').1

/-- The shutdown collects the dead children of the root and cannot fail. -/
theorem Steady.reapRoot : ∀ (rounds : Nat) (e : Embla), e.Steady →
    (reapRootLoop rounds e).1 = 0 ∧ (reapRootLoop rounds e).2.Steady ∧ (reapRootLoop rounds e).2.state = e.state
  | 0, e, h => ⟨rfl, h, rfl⟩
  | rounds + 1, e, h => by
    unfold reapRootLoop emblaReapChild
    cases hw : processManagerWaitChild e.processHeap e.processManager emblaRootPid with
    | none => exact ⟨rfl, h, rfl⟩
    | some p =>
      obtain ⟨hp, -, hdead⟩ := waitChild_some hw
      obtain ⟨e', hx, hr, hinv⟩ := emblaReapFoundProcess_ok h.inv hp
      simp only [hx, ne_eq, not_true_eq_false, if_false]
      obtain ⟨h1, h2, h3⟩ := Steady.reapRoot rounds e' (h.reaped hdead hr hinv)
      exact ⟨h1, h2, h3.trans hr.state⟩

theorem Steady.shutdown (h : e.Steady) (hs : e.state = .stopping) :
    ∃ e', emblaShutdown e = (0, e') ∧ e'.Steady ∧ e'.state = .stopped := by
  unfold emblaShutdown emblaReapRootChildren
  obtain ⟨h1, h2, -⟩ := Steady.reapRoot (e.processManager.processes.length + 1) e h
  rw [if_neg (not_not.2 hs)]
  simp only [h1, ne_eq, not_true_eq_false, if_false]
  exact ⟨_, rfl, h2.withState .stopped, rfl⟩

end Embla

end EmblaOs
