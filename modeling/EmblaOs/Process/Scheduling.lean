/-
Lifetime and scheduling over whole runs. As long as memory lasts and every event goes through
`embla_handle_child_event`, the scheduler holds each live process once and nothing else, so a removal
at a death and an addition at a spawn always find what they need. A drained event breaks this: it
ends a process and leaves it in the scheduler.
-/
import EmblaOs.Process.Membership

namespace EmblaOs

open Lib

/-- How often `p` is in the scheduler, as current or in the ready queue. -/
def schedulerOccurrences (s : Scheduler) (p : ProcessPtr) : Nat :=
  s.current.toList.count p + (schedulerReady s).count (some p)

namespace Embla

/-- A sound runtime with memory whose scheduler holds the live processes. -/
structure Staged (e : Embla) : Prop where
  sound : e.Sound
  allocs : ∀ n, e.host.allocs.get n = true
  placed : ∃ q, e.Placed q

variable {e e' : Embla} {p : ProcessPtr} {q : List ProcessPtr}

theorem staged_create {host : Host} (halloc : ∀ n, host.allocs.get n = true) : (emblaCreate host).Staged :=
  ⟨sound_create host, halloc, ⟨[], placed_create host⟩⟩

theorem Placed.occurrences (h : e.Placed q) (p : ProcessPtr) :
    schedulerOccurrences e.scheduler p = (e.scheduler.current.toList ++ q).count p := by
  unfold schedulerOccurrences
  rw [schedulerReady_queue h.queue, List.count_append, List.count_map_of_injective _ _ (Option.some_injective _)]

/-- The live processes are as many as the table holds at most. -/
theorem Placed.length_le (h : e.Placed q) : (e.scheduler.current.toList ++ q).length ≤ e.processManager.processes.length :=
  (List.subperm_of_subset h.nodup fun p hp => ((h.mem p).1 hp).1).length_le

/-- With a free slot of the table there is a free slot of the ready queue. -/
theorem Placed.queue_room (h : e.Placed q) (hslot : e.processManager.processes.length < processManagerInitialCapacity) :
    e.scheduler.count < schedulerInitialCapacity := by
  have hle := h.length_le
  rw [List.length_append] at hle
  rw [h.count]
  unfold processManagerInitialCapacity at hslot
  unfold schedulerInitialCapacity
  omega

/-! ## One event -/

theorem Placed.note (h : e.Placed q) (p : ProcessPtr) (status : WaitStatus) :
    (e.modifyProcess p (WaitStatus.note status)).Placed q := by
  refine h.congr rfl (fun _ => Iff.rfl) fun r _ => ?_
  rcases eq_or_ne r p with rfl | hne
  · rw [process_modifyProcess_self, (WaitStatus.note_keeps status _).2.2.2.1]
  · rw [process_modifyProcess_of_ne e _ hne]

/-- A death that is handled to the end had the memory to give the children away. -/
theorem emblaHandleTerminated_alloc {usage : Rusage} (h : (emblaHandleTerminated p usage e).1 = 0) :
    e.host.allocs.head = true := by
  rcases emblaHandleTerminated_cases p usage e with ⟨-, hx⟩ | ⟨-, ⟨-, hx⟩ | ⟨-, -, hx⟩ | ⟨-, halloc, -⟩⟩
  · rw [hx] at h
    cases h
  · rw [hx] at h
    cases h
  · rw [hx] at h
    cases h
  · exact halloc

/-- An event either leaves the live processes alone, or is the death of one of them and is handled. -/
theorem Placed.childEvent (h : e.Placed q) (hinv : e.Inv) (event : ChildEvent)
    (halloc : e.host.allocs.head = true ∨ (emblaHandleChildEvent event e).1 = 0) :
    (∃ q', (emblaHandleChildEvent event e).2.Placed q') ∧
    ∀ p, processManagerGetByHostId e.processHeap e.processManager event.hostId.pid = some p → event.status.Death →
      (e.process p).state ≠ .terminated → (emblaHandleChildEvent event e).1 = 0 := by
  rcases emblaHandleChildEvent_cases event e with ⟨hnone, hx⟩ | ⟨p, hget, hcase⟩
  · rw [hx]
    exact ⟨⟨q, h⟩, fun _ hc => by rw [hnone] at hc; cases hc⟩
  have hp : e.Tracked p := (getByHostId_some hget).1
  rcases hcase with ⟨-, hx⟩ | ⟨next, hnext, hdeath, hx⟩ | ⟨-, hx⟩ <;> rw [hx] at halloc ⊢
  · exact ⟨⟨q, h⟩, fun _ _ _ _ => rfl⟩
  · refine ⟨⟨q, h.congr rfl (fun _ => Iff.rfl) fun r _ => ?_⟩, fun _ _ hd => absurd hd hdeath⟩
    rcases eq_or_ne r p with rfl | hne
    · rw [process_modifyProcess_self, processTransition_eq]
      simp only
      split
      · -- a transition that is allowed starts and ends among the live states
        rename_i hcan
        generalize (e.process r).state = s at hcan
        constructor
        · intro hc
          rcases hnext with rfl | rfl <;> cases hc
        · intro hc
          rw [hc] at hcan
          cases hcan
      · exact Iff.rfl
    · rw [process_modifyProcess_of_ne e _ hne]
  · have hnote := h.note p event.status
    have hstate : ((e.modifyProcess p (WaitStatus.note event.status)).process p).state = (e.process p).state := by
      rw [process_modifyProcess_self]
      exact (WaitStatus.note_keeps event.status (e.process p)).2.2.2.1
    by_cases hlive : (e.process p).state = .terminated
    · have hno : processCanTransition ((e.modifyProcess p (WaitStatus.note event.status)).process p).state .terminated =
          false := by
        rw [hstate, hlive]
        rfl
      rcases emblaHandleTerminated_cases p event.usage (e.modifyProcess p (WaitStatus.note event.status)) with
        ⟨-, hy⟩ | ⟨hcan, -⟩
      · rw [hy]
        refine ⟨⟨q, hnote⟩, fun r hr _ hne => ?_⟩
        rw [hget] at hr
        cases hr
        exact absurd hlive hne
      · rw [hno] at hcan
        cases hcan
    · have hhead : e.host.allocs.head = true := halloc.elim id emblaHandleTerminated_alloc
      obtain ⟨e', hy, hd⟩ := hnote.handleTerminated (hinv.handled (handled_note e p event.status)) hp
        (by rw [hstate]; exact hlive) hhead event.usage
      rw [hy]
      exact ⟨⟨_, (hnote.died hp (by rw [hstate]; exact hlive) hd).1⟩, fun _ _ _ _ => rfl⟩

/-- Handling an event allocates at most once and makes no other host call. -/
theorem emblaHandleChildEvent_host (event : ChildEvent) (e : Embla) :
    (emblaHandleChildEvent event e).2.host = e.host ∨ (emblaHandleChildEvent event e).2.host = e.host.malloc.2 := by
  rcases emblaHandleChildEvent_cases event e with ⟨-, hx⟩ | ⟨p, -, ⟨-, hx⟩ | ⟨next, -, -, hx⟩ | ⟨-, hx⟩⟩ <;> rw [hx]
  · exact .inl rfl
  · exact .inl rfl
  · exact .inl rfl
  · rcases emblaHandleTerminated_cases p event.usage (e.modifyProcess p (WaitStatus.note event.status)) with
      ⟨-, hy⟩ | ⟨-, ⟨-, hy⟩ | ⟨-, -, hy⟩ | ⟨-, -, ⟨-, hy⟩ | ⟨-, hy⟩⟩⟩ <;> rw [hy]
    · exact .inl rfl
    · exact .inl rfl
    · exact .inr rfl
    · exact .inr rfl
    · exact .inr rfl

theorem Staged.handleNext (h : e.Staged) : (emblaHandleNextEvent e).Staged := by
  have hsound := h.sound.handled (emblaHandleNextEvent_handled e)
  have hpolled : ∀ n, e.polled.host.allocs.get n = true := polled_allocs h.allocs
  obtain ⟨q, hq⟩ := h.placed
  have hquiet : e.polled.Placed q := hq.congr rfl (fun _ => Iff.rfl) fun _ _ => Iff.rfl
  rw [emblaHandleNextEvent_eq] at hsound ⊢
  cases hw : e.host.wait4s.head with
  | event event =>
    rw [hw] at hsound
    have hinv : e.polled.Inv := OnlyHost.inv ⟨_, rfl⟩ h.sound.inv
    refine ⟨hsound, fun n => ?_, (hquiet.childEvent hinv event (.inl (hpolled 0))).1⟩
    rcases emblaHandleChildEvent_host event e.polled with hhost | hhost <;> rw [hhost]
    · exact hpolled n
    · exact hpolled (n + 1)
  | nothing =>
    rw [hw] at hsound
    exact ⟨hsound, hpolled, ⟨q, hquiet⟩⟩
  | echild =>
    rw [hw] at hsound
    exact ⟨hsound, hpolled, ⟨q, hquiet⟩⟩
  | error =>
    rw [hw] at hsound
    exact ⟨hsound, hpolled, ⟨q, hquiet⟩⟩

/-! ## The other steps -/

theorem Placed.unspawned (h : e.Placed q) (hinv : e.Inv) (hsame : SameTables e e')
    (hproc : ∀ p < e.processHeap.next, e'.process p = e.process p) (hsched : e'.scheduler = e.scheduler) :
    e'.Placed q := by
  refine h.congr hsched hsame.tracked fun p hp => ?_
  rw [hproc p (hinv.alloc hp)]

theorem Placed.dispatch (h : e.Placed q) : ∃ q', (emblaDispatch e).2.Placed q' := by
  by_cases hc : e.scheduler.current = none
  · cases q with
    | nil =>
      rcases emblaDispatch_cases h.queue with hx | ⟨p, rest, s, hnil, -⟩ | ⟨p, rest, s, hnil, -⟩
      · rw [hx]
        exact ⟨[], h⟩
      · cases hnil
      · cases hnil
    | cons p rest =>
      by_cases hst : (e.process p).state = .ready ∨ (e.process p).state = .stopped
      · obtain ⟨s, hx, -, hplaced⟩ := h.dispatch_ok hc hst
        rw [hx]
        exact ⟨rest, hplaced⟩
      · obtain ⟨s, hx, hplaced⟩ := h.dispatch_refused hc hst
        rw [hx]
        exact ⟨rest ++ [p], hplaced⟩
  · rw [dispatch_busy hc]
    exact ⟨q, h⟩

theorem Placed.yield (h : e.Placed q) : ∃ q', (emblaYield e).2.Placed q' := by
  rcases emblaYield_cases h.queue with hx | ⟨p, s, hc, hcan, hx, hqueue, hcur⟩ <;> rw [hx]
  · exact ⟨q, h⟩
  · -- the same processes, the current one now last
    have hperm : (q ++ [p]).Perm (p :: q) := List.perm_append_singleton ..
    have hmem := h.mem
    have hnodup := h.nodup
    rw [hc] at hmem hnodup
    refine ⟨q ++ [p], hqueue, ?_, fun r => ?_⟩
    · rw [show (e.yielded p s).scheduler.current = none from hcur]
      exact hperm.nodup_iff.2 hnodup
    · rw [show (e.yielded p s).scheduler.current = none from hcur]
      refine (hperm.mem_iff.trans (hmem r)).trans (and_congr_right fun _ => ?_)
      rcases eq_or_ne r p with rfl | hne
      · have hlive : (e.process r).state ≠ .terminated := ((hmem r).1 List.mem_cons_self).2
        refine iff_of_true hlive ?_
        rw [yielded_self]
        exact fun hc => by cases hc
      · rw [yielded_other e s hne]

theorem Placed.spawn (h : e.Placed q) (hinv : e.Inv) (name : String) : ∃ q', (emblaSpawn name e).2.Placed q' := by
  by_cases hs : e.Spawnable
  · obtain ⟨e₁, hx, hl⟩ := emblaSpawn_launched hinv hs name
    rw [hx]
    have hnew : e.withNewGroup.Placed q := h.congr rfl (fun _ => Iff.rfl) fun _ _ => Iff.rfl
    exact ⟨_, Spawned.placed hl hnew (hinv.withNewGroup hs.1.groupRoom) hs.room⟩
  · obtain ⟨e₁, hx, hsame, hproc, hsched, -⟩ := emblaSpawn_failed hinv hs name
    rw [hx]
    exact ⟨q, h.unspawned hinv hsame hproc hsched⟩

theorem Placed.spawnChild (h : e.Placed q) (hinv : e.Inv) {parent : ProcessPtr} (hp : e.Tracked parent)
    (name : String) : ∃ q', (emblaSpawnChild parent name e).2.Placed q' := by
  obtain ⟨g, hg, -, ⟨hroom, e₁, hx, hs⟩ | ⟨-, e₁, hx, hu⟩⟩ := emblaSpawnChild_cases hinv hp name <;> rw [hx]
  · exact ⟨_, hs.placed h hinv hroom⟩
  · exact ⟨q, h.unspawned hinv (hu.sameTables hinv) hu.others hu.scheduler⟩

theorem Staged.step (h : e.Staged) (hstep : Step e e') : e'.Staged := by
  have hsound := h.sound.step hstep
  have hinv := h.sound.inv
  obtain ⟨q, hq⟩ := h.placed
  cases hstep with
  | spawn name =>
    exact ⟨hsound, (emblaSpawn_moves name e).allocs h.allocs, hq.spawn hinv name⟩
  | spawnChild hp name =>
    exact ⟨hsound, (emblaSpawnChild_moves _ name e).allocs h.allocs, hq.spawnChild hinv hp name⟩
  | host ho hm =>
    refine ⟨hsound, hm.allocs h.allocs, q, ?_⟩
    obtain ⟨host, rfl⟩ := ho
    exact hq.congr rfl (fun _ => Iff.rfl) fun _ _ => Iff.rfl
  | handle => exact h.handleNext
  | dispatch => exact ⟨hsound, h.allocs, hq.dispatch⟩
  | yield => exact ⟨hsound, h.allocs, hq.yield⟩
  | reap hp hdead =>
    obtain ⟨e₁, hx, hr, -⟩ := emblaReapFoundProcess_ok hinv hp
    rw [hx] at hsound ⊢
    exact ⟨hsound, by rw [hr.host]; exact h.allocs, q, hq.reaped hdead hr⟩
  | state => exact ⟨hsound, h.allocs, q, hq.congr rfl (fun _ => Iff.rfl) fun _ _ => Iff.rfl⟩

/-! ## Whole runs -/

/-- Any operation but a drain. -/
def Handles (e : Embla) (op : EmblaOp) : Prop := op.Valid e ∧ op ≠ .drainEvent

theorem staged_of_runs {host : Host} (halloc : ∀ n, host.allocs.get n = true)
    (h : Runs EmblaOp.exec Handles (emblaCreate host) e) : e.Staged := by
  refine runs_invariant (fun _ _ hv => hv.1) (fun _ _ hI hs => hI.step hs) (fun e g n hI _ _ => ?_)
    (fun _ _ hv => absurd rfl hv.2) h (staged_create halloc)
  obtain ⟨q, hq⟩ := hI.placed
  exact ⟨hI.sound.setMaxMembers g n, hI.allocs, q, hq.congr rfl (fun _ => Iff.rfl) fun _ _ => Iff.rfl⟩

/-- Each live process is in the scheduler once and nothing else is in it; so the death of a live
process is always taken out of it, and a spawn that finds a slot in the table finds one in the queue. -/
theorem scheduler_holds_the_live {host : Host} (halloc : ∀ n, host.allocs.get n = true)
    (h : Runs EmblaOp.exec Handles (emblaCreate host) e) :
    (∀ p, e.Tracked p → (e.process p).state ≠ .terminated → schedulerOccurrences e.scheduler p = 1) ∧
    (∀ p, ¬ (e.Tracked p ∧ (e.process p).state ≠ .terminated) → schedulerOccurrences e.scheduler p = 0) ∧
    (∀ event p, processManagerGetByHostId e.processHeap e.processManager event.hostId.pid = some p →
      event.status.Death → (e.process p).state ≠ .terminated →
      (schedulerRemove e.scheduler p).1 = 0 ∧ (emblaHandleChildEvent event e).1 = 0) ∧
    (∀ p, e.processManager.processes.length < processManagerInitialCapacity → (schedulerAdd e.scheduler p).1 = 0) ∧
    (∀ name, (emblaSpawn name e).1 = none → ¬ e.SpawnResources) ∧
    (∀ parent name, e.Tracked parent → (emblaSpawnChild parent name e).1 = none →
      ∃ g ∈ e.processGroupManager.groups, parent ∈ (e.group g).processes ∧
        ¬ (¬ (e.group g).CapReached ∧ (e.group g).processes.length < processGroupInitialCapacity ∧
          e.processManager.Room e.host ∧ e.host.ForkRoom)) := by
  have hs := staged_of_runs halloc h
  obtain ⟨q, hq⟩ := hs.placed
  refine ⟨fun p hp hlive => ?_, fun p hno => ?_, fun event p hget hd hlive => ⟨?_, ?_⟩, fun p hslot => ?_,
    fun name hnone hres => ?_, fun parent name hp hnone => ?_⟩
  · rw [hq.occurrences]
    exact List.count_eq_one_of_mem hq.nodup ((hq.mem p).2 ⟨hp, hlive⟩)
  · rw [hq.occurrences]
    exact List.count_eq_zero.2 fun hc => hno ((hq.mem p).1 hc)
  · exact hq.remove_ok (getByHostId_some hget).1 hlive
  · exact (hq.childEvent hs.sound.inv event (.inl (hs.allocs 0))).2 p hget hd hlive
  · have hroom := hq.queue_room hslot
    exact (schedulerAdd_ok hq.queue (by rw [← hq.count]; exact hroom) p).1
  · obtain ⟨e', hx, -⟩ := emblaSpawn_launched hs.sound.inv ⟨hres, hq.queue_room hres.processes⟩ name
    rw [hx] at hnone
    cases hnone
  · obtain ⟨g, hg, hm, ⟨-, e', hx, -⟩ | ⟨hroom, -⟩⟩ := emblaSpawnChild_cases hs.sound.inv hp name
    · rw [hx] at hnone
      cases hnone
    · refine ⟨g, hg, hm, ?_⟩
      rintro ⟨h1, h2, h3, h4⟩
      exact hroom ⟨h1, h2, h3, h4, hq.queue_room h3.1⟩

end Embla

/-- Two processes, the first dispatched, and the exit of the second handled. -/
def firstRunsSecondDead : Embla := emblaHandleNextEvent (emblaDispatch (twoSpawned [.event (exitOf 1 0)])).2

theorem scheduler_holds_the_first :
    schedulerOccurrences firstRunsSecondDead.scheduler 0 = 1 ∧ schedulerOccurrences firstRunsSecondDead.scheduler 1 = 0 := by
  have hrun : Runs EmblaOp.exec Embla.Handles (emblaCreate (.generous [.event (exitOf 1 0)] [] 0)) firstRunsSecondDead :=
    ((((Runs.refl _).next (.runtime (.spawn "first")) ⟨trivial, fun hc => by cases hc⟩ rfl).next
      (.runtime (.spawn "second")) ⟨trivial, fun hc => by cases hc⟩ rfl).next
      .dispatch ⟨trivial, fun hc => by cases hc⟩ rfl).next .handleEvent ⟨trivial, fun hc => by cases hc⟩ rfl
  obtain ⟨hlive, hdead, -⟩ := Embla.scheduler_holds_the_live (fun _ => rfl) hrun
  refine ⟨hlive 0 ?_ (by decide +kernel), hdead 1 ?_⟩
  · decide +kernel
  · decide +kernel

end EmblaOs
