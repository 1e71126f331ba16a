/-
Turns of the scheduler. A process takes a turn when `scheduler_next` hands it out or `scheduler_dispatch`
asks it to become current. Whatever is called in whatever order, and whatever becomes of the records
meanwhile, whoever waits and is not removed has its turn right after those that wait ahead of it.
-/
import EmblaOs.Process.ReadyQueue
import EmblaOs.Lib.Turns

namespace EmblaOs

open Lib

/-- Whose turn a call is. -/
def SchedulerOp.turn (op : SchedulerOp) (x : Queueing) : Option ProcessPtr :=
  match op with
  | .next => (schedulerNext x.scheduler).1
  | .dispatch => if x.scheduler.current = none then (schedulerNext x.scheduler).1 else none
  | _ => none

/-- The turns that a list of calls gives, in order, and what it leaves. -/
def schedulerTurns : List SchedulerOp → Queueing → List ProcessPtr × Queueing
  | [], x => ([], x)
  | op :: ops, x =>
    let later := schedulerTurns ops ((op.exec x).getD x)
    ((op.turn x).toList ++ later.1, later.2)

section Step

variable {x y : Queueing} {q : List ProcessPtr} {op : SchedulerOp} {Leaves : ProcessPtr → Prop}

/-- Each call is a step of the queue. -/
theorem SchedulerOp.queueStep (hx : op.exec x = some y) (h : x.scheduler.Queue q)
    (hleaves : ∀ p, op = .remove p → Leaves p) :
    QueueStep Leaves q (op.turn x) y.scheduler.fifo.queue := by
  have hfifo : x.scheduler.fifo = ⟨q, x.scheduler.current⟩ := h.fifo
  cases op with
  | add p =>
    cases hx
    have hcall := h.add p
    rw [hfifo] at hcall
    unfold Fifo.add at hcall
    split_ifs at hcall with hlt
    · obtain ⟨s', hs, -, hf⟩ := hcall
      simp only [hs, hf]
      exact .joined q p
    · simp only [hcall, hfifo]
      exact .same q
  | remove p =>
    cases hx
    have hcall := h.remove p
    rw [hfifo] at hcall
    unfold Fifo.remove at hcall
    split_ifs at hcall with hc hin
    · obtain ⟨s', hs, -, hf⟩ := hcall
      simp only [hs, hf]
      exact .same q
    · obtain ⟨s', hs, -, hf⟩ := hcall
      simp only [hs, hf]
      exact .left q p (hleaves p rfl)
    · simp only [hcall, hfifo]
      exact .same q
  | next =>
    cases hx
    have hcall := h.next
    rw [hfifo] at hcall
    cases q with
    | nil =>
      simp only [Fifo.next] at hcall
      simp only [SchedulerOp.turn, hcall, hfifo]
      exact .same []
    | cons p rest =>
      simp only [Fifo.next] at hcall
      obtain ⟨s', hs, -, hf⟩ := hcall
      simp only [SchedulerOp.turn, hs, hf]
      exact .turn p rest
  | dispatch =>
    cases hx
    have hcall := h.dispatch x.heap
    have hnext := h.next
    rw [hfifo] at hcall hnext
    cases hc : x.scheduler.current with
    | some c =>
      simp only [hc, Fifo.dispatch] at hcall
      simp only [SchedulerOp.turn, hcall, hfifo, hc, reduceCtorEq, if_false]
      exact .same q
    | none =>
      cases q with
      | nil =>
        simp only [hc, Fifo.dispatch] at hcall
        simp only [Fifo.next] at hnext
        simp only [SchedulerOp.turn, hcall, hnext, hfifo, ite_self]
        exact .same []
      | cons p rest =>
        simp only [Fifo.next] at hnext
        obtain ⟨s', hs, -⟩ := hnext
        cases hm : mayBecome x.heap .running p with
        | true =>
          simp only [hc, Fifo.dispatch, hm, if_true] at hcall
          obtain ⟨s', hd, -, hf⟩ := hcall
          simp only [SchedulerOp.turn, hc, hs, hd, hf, if_true]
          exact .turn p rest
        | false =>
          simp only [hc, Fifo.dispatch, hm, Bool.false_eq_true, if_false] at hcall
          obtain ⟨s', hd, -, hf⟩ := hcall
          simp only [SchedulerOp.turn, hc, hs, hd, hf, if_true]
          exact .turnBack p rest
  | yield =>
    cases hx
    have hcall := h.yield x.heap
    rw [hfifo] at hcall
    cases hc : x.scheduler.current with
    | none =>
      simp only [hc, Fifo.yield] at hcall
      simp only [hcall, hfifo]
      exact .same q
    | some c =>
      simp only [hc, Fifo.yield] at hcall
      split_ifs at hcall with hlt
      · obtain ⟨s', hs, -, hf⟩ := hcall
        simp only [hs, hf]
        exact .joined q c
      · simp only [hcall, hfifo]
        exact .same q
  | others heap =>
    cases hx
    rw [hfifo]
    exact .same q

theorem SchedulerOp.exec_isSome (op : SchedulerOp) (x : Queueing) : ∃ y, op.exec x = some y := by
  cases op <;> exact ⟨_, rfl⟩

end Step

/-- A list of calls is a run of the queue. -/
theorem schedulerTurns_queueRun (Leaves : ProcessPtr → Prop) (ops : List SchedulerOp) (x : Queueing)
    (h : ∃ q, x.scheduler.Queue q) (hleaves : ∀ p, .remove p ∈ ops → Leaves p) :
    QueueRun Leaves x.scheduler.fifo.queue (schedulerTurns ops x).1 (schedulerTurns ops x).2.scheduler.fifo.queue := by
  induction ops generalizing x with
  | nil => exact .refl _
  | cons op ops ih =>
    obtain ⟨y, hy⟩ := op.exec_isSome x
    obtain ⟨q, hq⟩ := h
    have hstep : QueueStep Leaves x.scheduler.fifo.queue (op.turn x) y.scheduler.fifo.queue := by
      rw [congrArg Fifo.queue hq.fifo]
      refine SchedulerOp.queueStep hy hq fun p hp => hleaves p ?_
      rw [hp]
      exact List.mem_cons_self
    have hrest := ih y (SchedulerOp.queue hy ⟨q, hq⟩) fun p hp => hleaves p (List.mem_cons_of_mem _ hp)
    simp only [schedulerTurns, hy, Option.getD_some]
    exact .step hstep hrest

/-- Whoever waits and is not removed has its first turn right after those that wait ahead of it and are
not removed either, in their order, or still waits behind the rest of them: nobody overtakes. Of any
sixteen turns one is theirs. -/
theorem waiting_gets_its_turn {heap : Heap Process} {x : Queueing} {p : ProcessPtr} {ahead : List ProcessPtr}
    (h : SchedulerRuns heap x) (ops : List SchedulerOp) (hstays : .remove p ∉ ops)
    (hw : Waiting p ahead x.scheduler.fifo.queue) :
    ((∃ before after, (schedulerTurns ops x).1 = before ++ p :: after ∧
        Thinned (fun y => .remove y ∈ ops) before ahead) ∨
      ∃ ahead', Waiting p ahead' (schedulerTurns ops x).2.scheduler.fifo.queue ∧
        Thinned (fun y => .remove y ∈ ops) ((schedulerTurns ops x).1 ++ ahead') ahead) ∧
    (schedulerInitialCapacity ≤ (schedulerTurns ops x).1.length → p ∈ (schedulerTurns ops x).1) := by
  have hqueue : ∃ q, x.scheduler.Queue q :=
    Runs.holds (I := fun x => ∃ q, x.scheduler.Queue q) (fun _ _ _ hI _ hx => SchedulerOp.queue hx hI) h
      ⟨[], schedulerCreate_queue⟩
  have hrun := schedulerTurns_queueRun (fun y => .remove y ∈ ops) ops x hqueue fun _ hp => hp
  have hwait := hrun.waiting hstays hw
  refine ⟨hwait, fun hmany => ?_⟩
  rcases hwait with ⟨before, after, heq, -⟩ | ⟨ahead', -, hthin⟩
  · rw [heq]
    exact List.mem_append_right _ List.mem_cons_self
  -- those ahead and `p` itself fit into the array
  obtain ⟨q, hq⟩ := hqueue
  obtain ⟨behind, hbehind, -⟩ := hw
  have hlist : q = ahead ++ p :: behind := (congrArg Fifo.queue hq.fifo).symm.trans hbehind
  have hle : q.length ≤ schedulerInitialCapacity := hq.le
  have hshort := hthin.order.length_le
  rw [hlist] at hle
  simp only [List.length_append, List.length_cons] at hle hshort
  omega

/-- Three processes wait. -/
def threeWaiting : Scheduler := (schedulerAdd (schedulerAdd (schedulerAdd schedulerCreate 1).2 2).2 3).2

/-- The first is taken out and the second removed: the third is the next to be asked. -/
theorem waiting_gets_its_turn_third :
    (schedulerTurns [.next, .remove 2, .dispatch] ⟨threeWaiting, noProcesses⟩).1 = [1, 3] ∧
    ((∃ before after, (schedulerTurns [.next, .remove 2, .dispatch] ⟨threeWaiting, noProcesses⟩).1 = before ++ 3 :: after ∧
        Thinned (fun y => .remove y ∈ [SchedulerOp.next, .remove 2, .dispatch]) before [1, 2]) ∨
      ∃ ahead', Waiting 3 ahead'
          (schedulerTurns [.next, .remove 2, .dispatch] ⟨threeWaiting, noProcesses⟩).2.scheduler.fifo.queue ∧
        Thinned (fun y => .remove y ∈ [SchedulerOp.next, .remove 2, .dispatch])
          ((schedulerTurns [.next, .remove 2, .dispatch] ⟨threeWaiting, noProcesses⟩).1 ++ ahead') [1, 2]) ∧
    (schedulerInitialCapacity ≤ (schedulerTurns [.next, .remove 2, .dispatch] ⟨threeWaiting, noProcesses⟩).1.length →
      3 ∈ (schedulerTurns [.next, .remove 2, .dispatch] ⟨threeWaiting, noProcesses⟩).1) := by
  have hrun : SchedulerRuns noProcesses ⟨threeWaiting, noProcesses⟩ :=
    (((Runs.refl _).next (.add 1) trivial rfl).next (.add 2) trivial rfl).next (.add 3) trivial rfl
  exact ⟨by decide, waiting_gets_its_turn hrun _ (by simp) ⟨[], by decide, by decide⟩⟩

end EmblaOs
