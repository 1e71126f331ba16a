/-
Every way `embla_handle_child_event` can go. An event changes the state of the process it is for and,
when it is a death, the exit fields, the parent of the children and the place in the scheduler; ids,
groups and the tables stay. The failures on the way are told apart, since each leaves a different
part of the work done.
-/
import EmblaOs.Process.Events

namespace EmblaOs

open Lib

namespace Embla

/-- The record of `p` after its end was accepted. -/
def ended (e : Embla) (p : ProcessPtr) (usage : Rusage) : Embla :=
  e.modifyProcess p fun r => executorApplyRusage e.host.platform { r with state := .terminated } usage

/-- The children of `p` given to the root. -/
def orphaned (e : Embla) (p : ProcessPtr) : Embla :=
  { e with
    processHeap := reparentLoop (e.process p).id emblaRootPid e.processManager.processes e.processHeap
    host := e.host.malloc.2 }

variable {e e' : Embla} {p q : ProcessPtr} {usage : Rusage}

@[simp] theorem ended_self (e : Embla) (p : ProcessPtr) (usage : Rusage) :
    (e.ended p usage).process p =
      executorApplyRusage e.host.platform ((fun r : Process => { r with state := .terminated }) (e.process p)) usage :=
  process_modifyProcess_self ..

theorem ended_other (e : Embla) {p q : ProcessPtr} (usage : Rusage) (h : q ≠ p) :
    (e.ended p usage).process q = e.process q :=
  process_modifyProcess_of_ne _ _ h

/-- A field that the end of a process does not write. -/
theorem ended_field {β : Type} (field : Process → β)
    (hf : ∀ (r : Process) (platform : Platform) (usage : Rusage),
      field (executorApplyRusage platform { r with state := .terminated } usage) = field r) (e : Embla)
    (p q : ProcessPtr) (usage : Rusage) : field ((e.ended p usage).process q) = field (e.process q) := by
  rcases eq_or_ne q p with rfl | hne
  · rw [ended_self]
    exact hf ..
  · rw [ended_other e usage hne]

theorem orphaned_process (e : Embla) (p q : ProcessPtr) :
    (e.orphaned p).process q =
      if q ∈ e.processManager.processes ∧ (e.process q).parentId = (e.process p).id then
        (fun r : Process => { r with parentId := emblaRootPid }) (e.process q)
      else e.process q := reparentLoop_read ..

/-- A field other than the parent. -/
theorem orphaned_field {β : Type} (field : Process → β)
    (hf : ∀ r : Process, field { r with parentId := emblaRootPid } = field r) (e : Embla) (p q : ProcessPtr) :
    field ((e.orphaned p).process q) = field (e.process q) := by
  rw [orphaned_process]
  split
  · exact hf _
  · rfl

/-! ## The terminated label -/

/-- The death is refused; or it is recorded and the children cannot be given away, or they are and
the process is not in the scheduler, or it is taken out of it. -/
theorem emblaHandleTerminated_cases (p : ProcessPtr) (usage : Rusage) (e : Embla) :
    (processCanTransition (e.process p).state .terminated = false ∧ emblaHandleTerminated p usage e = (-1, e)) ∨
    (processCanTransition (e.process p).state .terminated = true ∧
      (((e.process p).id = emblaInvalidPid ∧ emblaHandleTerminated p usage e = (-1, e.ended p usage)) ∨
      ((e.process p).id ≠ emblaInvalidPid ∧ e.host.allocs.head = false ∧ emblaHandleTerminated p usage e =
        (-1, { e.ended p usage with host := e.host.malloc.2 })) ∨
      ((e.process p).id ≠ emblaInvalidPid ∧ e.host.allocs.head = true ∧
        (((schedulerRemove e.scheduler p).1 ≠ 0 ∧ emblaHandleTerminated p usage e = (-1, (e.ended p usage).orphaned p)) ∨
        ((schedulerRemove e.scheduler p).1 = 0 ∧ emblaHandleTerminated p usage e =
          (0, { (e.ended p usage).orphaned p with scheduler := (schedulerRemove e.scheduler p).2 })))))) := by
  unfold emblaHandleTerminated
  cases hcan : processCanTransition (e.process p).state .terminated with
  | false =>
    left
    rw [processTransition_refused hcan]
    exact ⟨rfl, rfl⟩
  | true =>
    right
    refine ⟨rfl, ?_⟩
    rw [processTransition_ok hcan]
    simp only [ne_eq, not_true_eq_false, if_false]
    have hended : (e.modifyProcess p fun _ =>
        executorApplyRusage e.host.platform { e.process p with state := .terminated } usage) = e.ended p usage := by
      unfold ended modifyProcess
      rw [e.processHeap.modify_congr]
      rfl
    rw [hended]
    -- the children are looked up under the id, which the end of a process leaves alone
    have hid : ((e.ended p usage).process p).id = (e.process p).id := ended_field Process.id (fun _ _ _ => rfl) ..
    unfold processManagerReparentChildren
    by_cases hinvalid : (e.process p).id = emblaInvalidPid
    · rw [if_pos (hid.trans hinvalid)]
      exact .inl ⟨hinvalid, rfl⟩
    have hvalid : ¬ ((e.ended p usage).process p).id = emblaInvalidPid := fun hc => hinvalid (hid.symm.trans hc)
    rw [if_neg hvalid]
    -- the iterator over the children is allocated next
    right
    cases halloc : e.host.allocs.head with
    | false =>
      left
      refine ⟨hinvalid, rfl, ?_⟩
      have hm : (e.ended p usage).host.malloc.1 = false := halloc
      simp only [hm, if_true]
      rfl
    | true =>
      right
      refine ⟨hinvalid, rfl, ?_⟩
      have hm : (e.ended p usage).host.malloc.1 = true := halloc
      simp only [hm, Bool.true_eq_false, if_false, not_true_eq_false]
      by_cases hrem : (schedulerRemove e.scheduler p).1 = 0
      · right
        refine ⟨hrem, ?_⟩
        have hrem' : (schedulerRemove (e.ended p usage).scheduler p).1 = 0 := hrem
        simp only [hrem', not_true_eq_false, if_false]
        rfl
      · left
        refine ⟨hrem, ?_⟩
        have hrem' : ¬ (schedulerRemove (e.ended p usage).scheduler p).1 = 0 := hrem
        simp only [hrem', not_false_eq_true, if_true]
        rfl

/-- Whatever fails afterwards, a death that is accepted is written down in the process, and in no other; of
the others only the parent may change. -/
theorem emblaHandleTerminated_written {β : Type} (field : Process → β)
    (hparent : ∀ r : Process, field { r with parentId := emblaRootPid } = field r) (p : ProcessPtr) (usage : Rusage)
    (e : Embla) (q : ProcessPtr) : field ((emblaHandleTerminated p usage e).2.process q) =
      if q = p ∧ processCanTransition (e.process p).state .terminated = true then field ((e.ended p usage).process p)
      else field (e.process q) := by
  have hend : processCanTransition (e.process p).state .terminated = true → field ((e.ended p usage).process q) =
      if q = p ∧ processCanTransition (e.process p).state .terminated = true then field ((e.ended p usage).process p)
      else field (e.process q) := by
    intro hcan
    rcases eq_or_ne q p with rfl | hne
    · rw [if_pos ⟨rfl, hcan⟩]
    · rw [ended_other e usage hne, if_neg fun hc => hne hc.1]
  have horphan := fun hcan => (orphaned_field field hparent (e.ended p usage) p q).trans (hend hcan)
  rcases emblaHandleTerminated_cases p usage e with
    ⟨hno, hx⟩ | ⟨hcan, ⟨-, hx⟩ | ⟨-, -, hx⟩ | ⟨-, -, ⟨-, hx⟩ | ⟨-, hx⟩⟩⟩ <;> rw [hx]
  · rw [if_neg]
    rw [hno]
    exact fun hc => Bool.false_ne_true hc.2
  · exact hend hcan
  · exact hend hcan
  · exact horphan hcan
  · exact horphan hcan

/-- A field that neither the end of a process nor a new parent writes. -/
theorem emblaHandleTerminated_field {β : Type} (field : Process → β)
    (hended : ∀ (r : Process) (platform : Platform) (usage : Rusage),
      field (executorApplyRusage platform { r with state := .terminated } usage) = field r)
    (hparent : ∀ r : Process, field { r with parentId := emblaRootPid } = field r) (p : ProcessPtr) (usage : Rusage)
    (e : Embla) (q : ProcessPtr) : field ((emblaHandleTerminated p usage e).2.process q) = field (e.process q) := by
  rw [emblaHandleTerminated_written field hparent]
  split
  · rename_i hq
    rw [hq.1, ended_field field hended]
  · rfl

theorem emblaHandleTerminated_state (p : ProcessPtr) (usage : Rusage) (e : Embla) (q : ProcessPtr) :
    ((emblaHandleTerminated p usage e).2.process q).state =
      if q = p ∧ processCanTransition (e.process p).state .terminated = true then .terminated
      else (e.process q).state := by
  rw [emblaHandleTerminated_written Process.state fun _ => rfl, ended_self]
  rfl

/-! ## What no event touches -/

/-- The tables, the groups and the ids are the same; the scheduler lost at most one process and some
processes may be children of the root now. -/
structure Handled (e e' : Embla) : Prop where
  manager : e'.processManager = e.processManager
  groupHeap : e'.groupHeap = e.groupHeap
  groupManager : e'.processGroupManager = e.processGroupManager
  next : e'.processHeap.next = e.processHeap.next
  id : ∀ q, (e'.process q).id = (e.process q).id
  groupId : ∀ q, (e'.process q).groupId = (e.process q).groupId
  hostId : ∀ q, (e'.process q).hostId = (e.process q).hostId
  parentId : ∀ q, (e'.process q).parentId = (e.process q).parentId ∨ (e'.process q).parentId = emblaRootPid
  started : ∀ q, (e.process q).state ≠ .created → (e'.process q).state ≠ .created
  scheduler : e'.scheduler = e.scheduler ∨
    ∃ p, (schedulerRemove e.scheduler p).1 = 0 ∧ e'.scheduler = (schedulerRemove e.scheduler p).2
  state : e'.state = e.state

theorem Handled.tracked (h : Handled e e') (p : ProcessPtr) : e'.Tracked p ↔ e.Tracked p :=
  tracked_congr (congrArg ProcessManager.processes h.manager) p

theorem Handled.refl (e : Embla) : Handled e e :=
  ⟨rfl, rfl, rfl, rfl, fun _ => rfl, fun _ => rfl, fun _ => rfl, fun _ => .inl rfl, fun _ h => h, .inl rfl, rfl⟩

theorem Handled.onlyHost (h : e.OnlyHost e') : Handled e e' := by
  obtain ⟨host, rfl⟩ := h
  exact ⟨rfl, rfl, rfl, rfl, fun _ => rfl, fun _ => rfl, fun _ => rfl, fun _ => .inl rfl, fun _ h => h, .inl rfl, rfl⟩

/-- A first part that leaves the scheduler alone. -/
theorem Handled.after {e₁ : Embla} (h : Handled e e₁) (hs : e₁.scheduler = e.scheduler) (h' : Handled e₁ e') :
    Handled e e' := by
  refine ⟨h'.manager.trans h.manager, h'.groupHeap.trans h.groupHeap, h'.groupManager.trans h.groupManager,
    h'.next.trans h.next, fun q => (h'.id q).trans (h.id q), fun q => (h'.groupId q).trans (h.groupId q),
    fun q => (h'.hostId q).trans (h.hostId q), fun q => ?_, fun q hq => h'.started q (h.started q hq), ?_,
    h'.state.trans h.state⟩
  · rcases h'.parentId q with hp | hp
    · rw [hp]
      exact h.parentId q
    · exact .inr hp
  · rw [← hs]
    exact h'.scheduler

theorem Handled.modifyProcess (e : Embla) (p : ProcessPtr) {f : Process → Process}
    (hf : (f (e.process p)).id = (e.process p).id ∧ (f (e.process p)).groupId = (e.process p).groupId ∧
      (f (e.process p)).hostId = (e.process p).hostId ∧ (f (e.process p)).parentId = (e.process p).parentId)
    (hs : (e.process p).state ≠ .created → (f (e.process p)).state ≠ .created) : Handled e (e.modifyProcess p f) := by
  have hfield : ∀ {β : Type} (field : Process → β) (q : ProcessPtr), field (f (e.process p)) = field (e.process p) →
      field ((e.modifyProcess p f).process q) = field (e.process q) := by
    intro β field q hp
    rcases eq_or_ne q p with rfl | hne
    · rw [process_modifyProcess_self]
      exact hp
    · rw [process_modifyProcess_of_ne e f hne]
  refine ⟨rfl, rfl, rfl, rfl, fun q => hfield Process.id q hf.1, fun q => hfield Process.groupId q hf.2.1,
    fun q => hfield Process.hostId q hf.2.2.1, fun q => .inl (hfield Process.parentId q hf.2.2.2), fun q hq => ?_,
    .inl rfl, rfl⟩
  rcases eq_or_ne q p with rfl | hne
  · rw [process_modifyProcess_self]
    exact hs hq
  · rw [process_modifyProcess_of_ne e f hne]
    exact hq

theorem handled_ended (e : Embla) (p : ProcessPtr) (usage : Rusage) : Handled e (e.ended p usage) :=
  .modifyProcess e p ⟨rfl, rfl, rfl, rfl⟩ fun _ hc => by cases hc

theorem handled_orphaned (e : Embla) (p : ProcessPtr) : Handled e (e.orphaned p) := by
  refine ⟨rfl, rfl, rfl, reparentLoop_next .., fun q => orphaned_field Process.id (fun _ => rfl) ..,
    fun q => orphaned_field Process.groupId (fun _ => rfl) .., fun q => orphaned_field Process.hostId (fun _ => rfl) ..,
    fun q => ?_, fun q hq => ?_, .inl rfl, rfl⟩
  · rw [orphaned_process]
    split
    · exact .inr rfl
    · exact .inl rfl
  · rw [orphaned_field Process.state (fun _ => rfl)]
    exact hq

theorem emblaHandleTerminated_handled (p : ProcessPtr) (usage : Rusage) (e : Embla) :
    Handled e (emblaHandleTerminated p usage e).2 := by
  have hended := handled_ended e p usage
  have horphaned : Handled e ((e.ended p usage).orphaned p) := hended.after rfl (handled_orphaned _ p)
  rcases emblaHandleTerminated_cases p usage e with ⟨-, hx⟩ | ⟨-, ⟨-, hx⟩ | ⟨-, -, hx⟩ | ⟨-, -, ⟨-, hx⟩ | ⟨hrem, hx⟩⟩⟩ <;>
    rw [hx]
  · exact .refl e
  · exact hended
  · exact hended.after rfl (.onlyHost ⟨_, rfl⟩)
  · exact horphaned
  · exact ⟨horphaned.manager, horphaned.groupHeap, horphaned.groupManager, horphaned.next, horphaned.id,
      horphaned.groupId, horphaned.hostId, horphaned.parentId, horphaned.started, .inr ⟨p, hrem, rfl⟩, rfl⟩

/-- The record of `p` with the exit code or the signal of its end. -/
def WaitStatus.note : WaitStatus → Process → Process
  | .exited code, r => { r with exitCode := code }
  | .signaled signal, r => { r with termSignal := signal }
  | _, r => r

/-- An event for nobody does nothing, a stop or a continue is a transition, and a death goes on to
the terminated label with its exit code or signal noted. -/
theorem emblaHandleChildEvent_cases (event : ChildEvent) (e : Embla) :
    (processManagerGetByHostId e.processHeap e.processManager event.hostId.pid = none ∧
      emblaHandleChildEvent event e = (0, e)) ∨
    ∃ p, processManagerGetByHostId e.processHeap e.processManager event.hostId.pid = some p ∧
      ((event.status = .other ∧ emblaHandleChildEvent event e = (0, e)) ∨
      (∃ next, (next = .stopped ∨ next = .running) ∧ ¬ event.status.Death ∧ emblaHandleChildEvent event e =
        ((processTransition (e.process p) next).1,
          e.modifyProcess p fun _ => (processTransition (e.process p) next).2)) ∨
      (event.status.Death ∧ emblaHandleChildEvent event e =
        emblaHandleTerminated p event.usage (e.modifyProcess p (WaitStatus.note event.status)))) := by
  unfold emblaHandleChildEvent
  cases processManagerGetByHostId e.processHeap e.processManager event.hostId.pid with
  | none => exact .inl ⟨rfl, rfl⟩
  | some p =>
    right
    refine ⟨p, rfl, ?_⟩
    cases hs : event.status with
    | exited code => exact .inr (.inr ⟨trivial, rfl⟩)
    | signaled signal => exact .inr (.inr ⟨trivial, rfl⟩)
    | stopped signal => exact .inr (.inl ⟨.stopped, .inl rfl, id, rfl⟩)
    | continued => exact .inr (.inl ⟨.running, .inr rfl, id, rfl⟩)
    | other => exact .inl ⟨rfl, rfl⟩

theorem WaitStatus.note_keeps (status : WaitStatus) (r : Process) :
    (note status r).id = r.id ∧ (note status r).groupId = r.groupId ∧ (note status r).hostId = r.hostId ∧
      (note status r).state = r.state ∧ (note status r).parentId = r.parentId := by
  cases status <;> exact ⟨rfl, rfl, rfl, rfl, rfl⟩

theorem handled_note (e : Embla) (p : ProcessPtr) (status : WaitStatus) :
    Handled e (e.modifyProcess p (WaitStatus.note status)) := by
  obtain ⟨h1, h2, h3, h4, h5⟩ := WaitStatus.note_keeps status (e.process p)
  refine .modifyProcess e p ⟨h1, h2, h3, h5⟩ fun hs => ?_
  rw [h4]
  exact hs

theorem emblaHandleChildEvent_handled (event : ChildEvent) (e : Embla) :
    Handled e (emblaHandleChildEvent event e).2 := by
  rcases emblaHandleChildEvent_cases event e with ⟨-, hx⟩ | ⟨p, -, ⟨-, hx⟩ | ⟨next, hnext, -, hx⟩ | ⟨-, hx⟩⟩ <;> rw [hx]
  · exact .refl e
  · exact .refl e
  · refine .modifyProcess e p ?_ fun hs => ?_
    · rw [processTransition_eq]
      exact ⟨rfl, rfl, rfl, rfl⟩
    · rw [processTransition_eq]
      simp only
      split
      · rcases hnext with rfl | rfl <;> exact fun hc => by cases hc
      · exact hs
  · exact (handled_note e p event.status).after rfl (emblaHandleTerminated_handled p event.usage _)

/-- A removal from the ready queue that went through, on the queue as a list. -/
theorem schedulerRemove_queue {s : Scheduler} {l : List ProcessPtr} (h : s.Queue l) {p : ProcessPtr}
    (hrem : (schedulerRemove s p).1 = 0) :
    ∃ l', (schedulerRemove s p).2.Queue l' ∧ (∀ q ∈ l', q ∈ l) ∧
      ((schedulerRemove s p).2.current = s.current ∨ (schedulerRemove s p).2.current = none) := by
  by_cases hc : s.current = some p
  · rw [schedulerRemove_current hc]
    exact ⟨l, h.withCurrent none, fun _ hq => hq, .inr rfl⟩
  · by_cases hin : p ∈ l
    · obtain ⟨-, h2, h3⟩ := schedulerRemove_queued h hc hin
      exact ⟨l.erase p, h2, fun q hq => List.mem_of_mem_erase hq, .inl h3⟩
    · rw [schedulerRemove_absent h hc hin] at hrem
      cases hrem

theorem Handled.sameTables (hh : Handled e e') (h : e.Inv) : SameTables e e' := by
  have hgroup : ∀ g, e'.group g = e.group g := fun g => by
    unfold group
    rw [hh.groupHeap]
  refine ⟨le_of_eq hh.next.symm, by rw [hh.manager], ?_, fun p hp => ⟨hh.id p, hh.groupId p,
    hh.started p (h.started p hp)⟩, by rw [hh.groupHeap], by rw [hh.groupManager], ?_, fun g _ => ?_⟩
  · rw [hh.manager]
    exact ⟨le_refl _, h.table.nextHi⟩
  · rw [hh.groupManager]
    exact ⟨le_refl _, h.groupTable.nextHi⟩
  · rw [hgroup]
    exact ⟨rfl, rfl⟩

/-- Events keep the invariant of the tables. -/
theorem Inv.handled (h : e.Inv) (hh : Handled e e') : e'.Inv := by
  obtain ⟨l, hl, hlt⟩ := h.queue
  refine h.sameTables (hh.sameTables h) ?_
  rw [hh.next]
  rcases hh.scheduler with hs | ⟨p, hrem, hs⟩ <;> rw [hs]
  · exact ⟨l, hl, hlt⟩
  · obtain ⟨l', hl', hsub, -⟩ := schedulerRemove_queue hl hrem
    exact ⟨l', hl', fun q hq => hlt q (hsub q hq)⟩

end Embla

end EmblaOs
