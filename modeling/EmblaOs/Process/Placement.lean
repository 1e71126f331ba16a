/-
Where the live processes are: each tracked process that has not terminated is in the scheduler
exactly once, as the current one or in the ready queue, and nothing else is. Dispatching, the death
of a process, reaping and spawning each keep this.
-/
import EmblaOs.Process.Handling
import EmblaOs.Process.Reports

namespace EmblaOs

open Lib

namespace Embla

/-- The scheduler holds `q` behind the current process, and together these are the live processes. -/
structure Placed (e : Embla) (q : List ProcessPtr) : Prop where
  queue : e.scheduler.Queue q
  nodup : (e.scheduler.current.toList ++ q).Nodup
  mem : ∀ p, p ∈ e.scheduler.current.toList ++ q ↔ e.Tracked p ∧ (e.process p).state ≠ .terminated

variable {e e' : Embla} {p : ProcessPtr} {q : List ProcessPtr}

theorem placed_create (host : Host) : (emblaCreate host).Placed [] := by
  refine ⟨schedulerCreate_queue, List.nodup_nil, fun p => ⟨fun hp => ?_, fun hp => ?_⟩⟩
  · cases hp
  · cases hp.1

/-- The same table, the same scheduler and nobody died or came back. -/
theorem Placed.congr (h : e.Placed q) (hsched : e'.scheduler = e.scheduler) (ht : ∀ p, e'.Tracked p ↔ e.Tracked p)
    (hdead : ∀ p, e.Tracked p → ((e'.process p).state = .terminated ↔ (e.process p).state = .terminated)) :
    e'.Placed q := by
  refine ⟨by rw [hsched]; exact h.queue, by rw [hsched]; exact h.nodup, fun p => ?_⟩
  rw [hsched, h.mem, ht]
  refine and_congr_right fun hp => ?_
  rw [ne_eq, ne_eq, hdead p hp]

/-- `scheduler_ready_count`. -/
theorem Placed.count (h : e.Placed q) : e.scheduler.count = q.length := h.queue.count

theorem Placed.tracked (h : e.Placed q) (hp : p ∈ q) : e.Tracked p ∧ (e.process p).state ≠ .terminated :=
  (h.mem p).1 (List.mem_append_right _ hp)

/-! ## Dispatch -/

/-- The process at the front of the ready queue. -/
def front (e : Embla) : Option ProcessPtr := (schedulerReady e.scheduler).head?.join

theorem front_queue (h : e.scheduler.Queue q) : e.front = q.head? := by
  unfold Embla.front
  rw [schedulerReady_queue h]
  cases q <;> rfl

theorem Placed.front (h : e.Placed q) : e.front = q.head? := front_queue h.queue

/-- What a dispatch does to the front process. -/
def started (e : Embla) (p : ProcessPtr) (scheduler : Scheduler) : Embla :=
  { e with scheduler := scheduler, processHeap := e.processHeap.modify p fun r => { r with state := .running } }

theorem started_self (e : Embla) (p : ProcessPtr) (s : Scheduler) :
    (e.started p s).process p = (fun r : Process => { r with state := .running }) (e.process p) := by
  unfold started Embla.process
  rw [Heap.read_modify_self]

theorem started_other (e : Embla) {p r : ProcessPtr} (s : Scheduler) (h : r ≠ p) :
    (e.started p s).process r = e.process r := by
  unfold started Embla.process
  rw [Heap.read_modify_of_ne _ _ h]

theorem Placed.dispatch_ok {rest : List ProcessPtr} (h : e.Placed (p :: rest)) (hc : e.scheduler.current = none)
    (hst : (e.process p).state = .ready ∨ (e.process p).state = .stopped) :
    ∃ s, emblaDispatch e = (0, e.started p s) ∧ s.current = some p ∧ (e.started p s).Placed rest := by
  obtain ⟨s, hx, hqueue, hcur⟩ := schedulerDispatch_ok h.queue hc ((canTransition_running _).2 hst)
  refine ⟨s, ?_, hcur, hqueue, ?_, fun q => ?_⟩
  · unfold emblaDispatch
    rw [hx]
    rfl
  · have hnodup := h.nodup
    rw [hc] at hnodup
    rw [show (e.started p s).scheduler.current = some p from hcur]
    exact hnodup
  · have hmem := h.mem q
    rw [hc] at hmem
    rw [show (e.started p s).scheduler.current = some p from hcur]
    refine Iff.trans hmem (and_congr_right fun _ => ?_)
    rcases eq_or_ne q p with rfl | hne
    · have hlive : (e.process q).state ≠ .terminated := (h.tracked List.mem_cons_self).2
      refine iff_of_true hlive ?_
      rw [started_self]
      exact fun hc => by cases hc
    · rw [started_other e s hne]

/-- A front process that may not run goes to the back and the records stay. -/
theorem Placed.dispatch_refused {rest : List ProcessPtr} (h : e.Placed (p :: rest)) (hc : e.scheduler.current = none)
    (hst : ¬ ((e.process p).state = .ready ∨ (e.process p).state = .stopped)) :
    ∃ s, emblaDispatch e = (-1, { e with scheduler := s }) ∧
      Embla.Placed { e with scheduler := s } (rest ++ [p]) := by
  have hno : processCanTransition (e.process p).state .running = false := by
    rw [← Bool.not_eq_true, canTransition_running]
    exact hst
  obtain ⟨s, hx, hqueue, hcur⟩ := schedulerDispatch_refused h.queue hc hno
  have hperm : (rest ++ [p]).Perm (p :: rest) := List.perm_append_singleton ..
  have hmem := h.mem
  have hnodup := h.nodup
  rw [hc] at hmem hnodup
  refine ⟨s, ?_, hqueue, ?_, fun q => ?_⟩
  · unfold emblaDispatch
    rw [hx]
  · simp only
    rw [hcur]
    exact hperm.nodup_iff.2 hnodup
  · simp only
    rw [hcur]
    exact hperm.mem_iff.trans (hmem q)

theorem dispatch_busy (hc : e.scheduler.current ≠ none) : emblaDispatch e = (-1, e) := by
  unfold emblaDispatch
  rw [schedulerDispatch_busy hc]

/-! ## Death -/

/-- `p` has ended and left the scheduler; of the other records at most the parent differs. -/
structure Died (p : ProcessPtr) (e e' : Embla) : Prop where
  tables : SameTables e e'
  state : ∀ q, (e'.process q).state = if q = p then .terminated else (e.process q).state
  hostId : ∀ q, (e'.process q).hostId = (e.process q).hostId
  scheduler : e'.scheduler = (schedulerRemove e.scheduler p).2
  host : e'.host = e.host.malloc.2
  embla : e'.state = e.state

/-- A live process is current or queued, so it can be removed. -/
theorem Placed.remove_ok (h : e.Placed q) (hp : e.Tracked p) (hlive : (e.process p).state ≠ .terminated) :
    (schedulerRemove e.scheduler p).1 = 0 := by
  have hmem := (h.mem p).2 ⟨hp, hlive⟩
  by_cases hc : e.scheduler.current = some p
  · rw [schedulerRemove_current hc]
  · have hin : p ∈ q := by
      rcases List.mem_append.1 hmem with hin | hin
      · exact absurd (Option.mem_toList.1 hin) hc
      · exact hin
    exact (schedulerRemove_queued h.queue hc hin).1

/-- A live process is in the scheduler, so with memory its death is always handled. -/
theorem Placed.handleTerminated (h : e.Placed q) (hinv : e.Inv) (hp : e.Tracked p)
    (hlive : (e.process p).state ≠ .terminated) (halloc : e.host.allocs.head = true) (usage : Rusage) :
    ∃ e', emblaHandleTerminated p usage e = (0, e') ∧ Died p e e' := by
  have hcan := (canTransition_terminated (e.process p).state).2 ⟨hinv.started p hp, hlive⟩
  have hh := emblaHandleTerminated_handled p usage e
  have hstate := emblaHandleTerminated_state p usage e
  -- the four failures: no such transition, an invalid id, no memory, not in the scheduler
  rcases emblaHandleTerminated_cases p usage e with
    ⟨hno, -⟩ | ⟨-, ⟨hinvalid, -⟩ | ⟨-, hfull, -⟩ | ⟨-, -, ⟨hgone, -⟩ | ⟨-, hx⟩⟩⟩
  · rw [hcan] at hno
    cases hno
  · exact absurd hinvalid (hinv.table.id_valid hp)
  · rw [halloc] at hfull
    cases hfull
  · exact absurd (h.remove_ok hp hlive) hgone
  · rw [hx] at hh hstate
    refine ⟨_, hx, hh.sameTables hinv, fun r => ?_, hh.hostId, rfl, rfl, hh.state⟩
    rw [hstate r]
    simp only [hcan, and_true]

/-- The dead process leaves the scheduler and the others keep their places. -/
theorem Placed.died (h : e.Placed q) (hp : e.Tracked p) (hlive : (e.process p).state ≠ .terminated)
    (hd : Died p e e') :
    e'.Placed (if e.scheduler.current = some p then q else q.erase p) ∧
      e'.scheduler.current = if e.scheduler.current = some p then none else e.scheduler.current := by
  have hpm := (h.mem p).2 ⟨hp, hlive⟩
  have hdead : ∀ r, e'.Tracked r ∧ (e'.process r).state ≠ .terminated ↔
      (e.Tracked r ∧ (e.process r).state ≠ .terminated) ∧ r ≠ p := by
    intro r
    rw [hd.state r]
    rw [hd.tables.tracked]
    by_cases hr : r = p
    · simp [hr]
    · simp [hr]
  have hnodup := h.nodup
  -- the process is in the current slot or queued, never both
  by_cases hc : e.scheduler.current = some p
  · simp only [if_pos hc]
    have hcur : e'.scheduler.current = none := by rw [hd.scheduler, schedulerRemove_current hc]
    rw [hc] at hnodup
    have hsplit := List.nodup_cons.1 hnodup
    refine ⟨⟨?_, ?_, fun r => ?_⟩, hcur⟩
    · rw [hd.scheduler, schedulerRemove_current hc]
      exact h.queue.withCurrent none
    · rw [hcur]
      exact hsplit.2
    · rw [hcur, hdead, ← h.mem r, hc]
      refine ⟨fun hr => ⟨List.mem_cons_of_mem _ hr, ?_⟩, fun hr => (List.mem_cons.1 hr.1).resolve_left hr.2⟩
      rintro rfl
      exact hsplit.1 hr
  · simp only [if_neg hc]
    have hin : p ∈ q := by
      rcases List.mem_append.1 hpm with hin | hin
      · exact absurd (Option.mem_toList.1 hin) hc
      · exact hin
    obtain ⟨-, hqueue, hcur⟩ := schedulerRemove_queued h.queue hc hin
    rw [← hd.scheduler] at hqueue hcur
    have herase : (e.scheduler.current.toList ++ q).erase p = e.scheduler.current.toList ++ q.erase p :=
      List.erase_append_right _ fun hc' => hc (Option.mem_toList.1 hc')
    refine ⟨⟨hqueue, ?_, fun r => ?_⟩, hcur⟩
    · rw [hcur, ← herase]
      exact hnodup.erase p
    · rw [hcur, hdead, ← h.mem r, ← herase, hnodup.mem_erase_iff, and_comm]

/-! ## Reaping and spawning -/

theorem Placed.reaped (h : e.Placed q) (hdead : (e.process p).state = .terminated) (hr : Reaped p e e') :
    e'.Placed q := by
  refine ⟨by rw [hr.scheduler]; exact h.queue, by rw [hr.scheduler]; exact h.nodup, fun r => ?_⟩
  have hproc := hr.process r
  rw [hr.scheduler, h.mem, hr.tracked, hproc, and_right_comm]
  refine (and_iff_left_of_imp ?_).symm
  rintro ⟨-, hlive⟩ rfl
  exact hlive hdead

end Embla

theorem Spawned.placed {e e' : Embla} {parentId : Nat} {name : String} {g : GroupPtr} {q : List ProcessPtr}
    (hs : Spawned parentId name g e e') (h : e.Placed q) (hinv : e.Inv) (hroom : e.Room g) :
    e'.Placed (q ++ [e.processHeap.next]) := by
  obtain ⟨pid, -, hnew, -⟩ := hs.record
  have hcur : e'.scheduler.current = e.scheduler.current := by
    rw [hs.scheduler]
    exact (schedulerAdd_ok h.queue (by rw [← h.count]; exact hroom.queue) _).2.2
  have hfresh : e.processHeap.next ∉ e.scheduler.current.toList ++ q := by
    intro hc
    have := hinv.alloc ((h.mem _).1 hc).1
    lia
  refine ⟨hs.queue hroom.queue h.queue, ?_, fun p => ?_⟩
  · rw [hcur, ← List.append_assoc]
    refine List.nodup_append.2 ⟨h.nodup, List.nodup_singleton _, fun a ha b hb hab => ?_⟩
    rw [List.mem_singleton] at hb
    subst hb
    exact hfresh (hab ▸ ha)
  · rw [hcur, ← List.append_assoc, List.mem_append, List.mem_singleton, h.mem, hs.tracked]
    rcases eq_or_ne p e.processHeap.next with rfl | hne
    · simp [hnew]
    · simp [hne, hs.others p hne]

end EmblaOs
