/-
The scheduler as a bounded queue. Read from `head` over `count` slots, the array is a list; in every
state that calls of the five operations lead to, whatever else happens to the processes in between,
each operation is the one of the queue, and whatever is outside the window is NULL.
-/
import Mathlib.Data.List.ReduceOption
import EmblaOs.Process.Scheduler
import EmblaOs.Lib.Fifo
import EmblaOs.Lib.Runs

namespace EmblaOs

open Lib

/-- The entries from `head` over `count` slots, and who is current. -/
def Scheduler.fifo (s : Scheduler) : Fifo ProcessPtr := ⟨(schedulerReady s).reduceOption, s.current⟩

theorem reduceOption_map_some (q : List ProcessPtr) : (q.map some).reduceOption = q := by
  induction q with
  | nil => rfl
  | cons p q ih => rw [List.map_cons, List.reduceOption_cons_of_some, ih]

theorem Scheduler.Queue.fifo {s : Scheduler} {q : List ProcessPtr} (h : s.Queue q) : s.fifo = ⟨q, s.current⟩ := by
  unfold Scheduler.fifo
  rw [schedulerReady_queue h, reduceOption_map_some]

/-! ## One call -/

/-- May this process change to that state. -/
def mayBecome (heap : Heap Process) (next : ProcessState) (p : ProcessPtr) : Bool :=
  processCanTransition (heap.read p).state next

/-- The record of `p` with another state. -/
def withProcessState (heap : Heap Process) (p : ProcessPtr) (state : ProcessState) : Heap Process :=
  heap.modify p fun r => { r with state := state }

section Calls

variable {s : Scheduler} {q : List ProcessPtr} {heap : Heap Process}

theorem Scheduler.Queue.add (h : s.Queue q) (p : ProcessPtr) :
    match s.fifo.add schedulerInitialCapacity p with
    | none => schedulerAdd s p = (-1, s)
    | some f => ∃ s', schedulerAdd s p = (0, s') ∧ s'.Queue f.queue ∧ s'.fifo = f := by
  rw [h.fifo]
  unfold Fifo.add
  by_cases hlt : q.length < schedulerInitialCapacity
  · obtain ⟨h1, h2, h3⟩ := schedulerAdd_ok h hlt p
    simp only [hlt, if_true]
    refine ⟨_, Prod.ext h1 rfl, h2, ?_⟩
    rw [h2.fifo, h3]
  · simp only [hlt, if_false]
    unfold schedulerAdd
    rw [if_pos]
    rw [h.count]
    omega

theorem Scheduler.Queue.next (h : s.Queue q) :
    match s.fifo.next with
    | none => schedulerNext s = (none, s)
    | some (p, f) => ∃ s', schedulerNext s = (some p, s') ∧ s'.Queue f.queue ∧ s'.fifo = f := by
  rw [h.fifo]
  cases q with
  | nil => exact schedulerNext_nil h
  | cons p rest =>
    obtain ⟨h1, h2, h3⟩ := schedulerNext_cons h
    refine ⟨_, Prod.ext h1 rfl, h2, ?_⟩
    rw [h2.fifo, h3]

theorem Scheduler.Queue.remove (h : s.Queue q) (p : ProcessPtr) :
    match s.fifo.remove p with
    | none => schedulerRemove s p = (-1, s)
    | some f => ∃ s', schedulerRemove s p = (0, s') ∧ s'.Queue f.queue ∧ s'.fifo = f := by
  rw [h.fifo]
  unfold Fifo.remove
  simp only
  by_cases hc : s.current = some p
  · rw [if_pos hc, schedulerRemove_current hc]
    exact ⟨_, rfl, h.withCurrent none, (h.withCurrent none).fifo⟩
  rw [if_neg hc]
  by_cases hin : p ∈ q
  · obtain ⟨h1, h2, h3⟩ := schedulerRemove_queued h hc hin
    rw [if_pos hin]
    refine ⟨_, Prod.ext h1 rfl, h2, ?_⟩
    rw [h2.fifo, h3]
  · rw [if_neg hin]
    exact schedulerRemove_absent h hc hin

theorem Scheduler.Queue.dispatch (h : s.Queue q) (heap : Heap Process) :
    match s.fifo.dispatch (mayBecome heap .running) with
    | none => schedulerDispatch s heap = (-1, s, heap)
    | some (p, true, f) => ∃ s', schedulerDispatch s heap = (0, s', withProcessState heap p .running) ∧
        s'.Queue f.queue ∧ s'.fifo = f
    | some (_, false, f) => ∃ s', schedulerDispatch s heap = (-1, s', heap) ∧ s'.Queue f.queue ∧ s'.fifo = f := by
  rw [h.fifo]
  unfold Fifo.dispatch
  cases hc : s.current with
  | some c => exact schedulerDispatch_busy (by rw [hc]; exact Option.some_ne_none c)
  | none =>
    cases q with
    | nil => exact schedulerDispatch_nil h
    | cons p rest =>
      cases hm : mayBecome heap .running p with
      | true =>
        obtain ⟨s', hx, hq, hcur⟩ := schedulerDispatch_ok h hc hm
        simp only [hm, if_true]
        refine ⟨s', hx, hq, ?_⟩
        rw [hq.fifo, hcur]
      | false =>
        obtain ⟨s', hx, hq, hcur⟩ := schedulerDispatch_refused h hc hm
        simp only [hm, Bool.false_eq_true, if_false]
        refine ⟨s', hx, hq, ?_⟩
        rw [hq.fifo, hcur]

theorem Scheduler.Queue.yield (h : s.Queue q) (heap : Heap Process) :
    match s.fifo.yield schedulerInitialCapacity (mayBecome heap .ready) with
    | none => schedulerYield s heap = (-1, s, heap)
    | some (p, f) => ∃ s', schedulerYield s heap = (0, s', withProcessState heap p .ready) ∧
        s'.Queue f.queue ∧ s'.fifo = f := by
  rw [h.fifo]
  unfold Fifo.yield schedulerYield
  cases hc : s.current with
  | none => rfl
  | some p =>
    simp only
    have hcount := h.count
    by_cases hlt : q.length < schedulerInitialCapacity
    swap
    · rw [if_neg fun hcon => hlt hcon.1, if_pos (show s.count ≥ schedulerInitialCapacity by omega)]
    rw [if_neg (show ¬ s.count ≥ schedulerInitialCapacity by omega)]
    cases hm : mayBecome heap .ready p with
    | false =>
      simp only [Bool.false_eq_true, and_false, if_false, processTransition_refused hm]
      rfl
    | true =>
      obtain ⟨h1, h2, h3⟩ := schedulerAdd_ok (h.withCurrent none) hlt p
      simp only [hlt, and_self, if_true, processTransition_ok hm, ne_eq, not_true_eq_false, if_false]
      refine ⟨_, ?_, h2, ?_⟩
      · rw [h1]
        unfold withProcessState
        rw [heap.modify_congr]
        rfl
      · rw [h2.fifo, h3]

end Calls

theorem schedulerAdd_head (s : Scheduler) (p : ProcessPtr) : (schedulerAdd s p).2.head = s.head := by
  unfold schedulerAdd
  split <;> rfl

/-- Putting the front back moves the window on, even when the queue reads as before. -/
theorem schedulerDispatch_head {s : Scheduler} {q : List ProcessPtr} {heap : Heap Process} {p : ProcessPtr}
    (h : s.Queue (p :: q)) (hc : s.current = none) (ht : mayBecome heap .running p = false) :
    (schedulerDispatch s heap).2.1.head = schedulerAdvance s.head := by
  have hcount : s.count ≠ 0 := by
    rw [h.count]
    exact Nat.succ_ne_zero q.length
  have hfront : (s.readyQueue[s.head]?).join = some p := by
    rw [h.holds.front]
    rfl
  unfold schedulerDispatch schedulerNext
  rw [if_neg (not_not.2 hc), if_neg hcount, hfront]
  simp only [processTransition_refused ht]
  exact schedulerAdd_head ..

/-- A dispatch leaves everything as it was exactly when somebody is current or nobody waits. -/
theorem Scheduler.Queue.dispatch_unchanged {s : Scheduler} {q : List ProcessPtr} (h : s.Queue q) (heap : Heap Process) :
    schedulerDispatch s heap = (-1, s, heap) ↔ s.current ≠ none ∨ q = [] := by
  have hcall := h.dispatch heap
  have hnone := Fifo.dispatch_eq_none (mayBecome heap .running) s.fifo
  rw [h.fifo] at hcall hnone
  constructor
  · intro hx
    by_contra hno
    rw [not_or, not_not] at hno
    obtain ⟨hc, hne⟩ := hno
    obtain ⟨p, rest, rfl⟩ := List.exists_cons_of_ne_nil hne
    cases hm : mayBecome heap .running p with
    | true =>
      obtain ⟨s', hy, -⟩ := schedulerDispatch_ok h hc hm
      rw [hx] at hy
      cases hy
    | false =>
      have hhead := schedulerDispatch_head h hc hm
      rw [hx] at hhead
      have hlt := h.holds.head_lt
      simp only [schedulerAdvance, schedulerInitialCapacity] at hhead hlt
      omega
  · intro hor
    rw [hnone.2 hor] at hcall
    exact hcall

/-! ## Every sequence of calls -/

/-- A scheduler and the records of the processes it is given. -/
structure Queueing where
  scheduler : Scheduler
  heap : Heap Process

inductive SchedulerOp
  | add (process : ProcessPtr)
  | remove (process : ProcessPtr)
  | next
  | dispatch
  | yield
  /-- what everybody else does to the records in between -/
  | others (heap : Heap Process)

def SchedulerOp.exec : SchedulerOp → Queueing → Option Queueing
  | .add process, x => some { x with scheduler := (schedulerAdd x.scheduler process).2 }
  | .remove process, x => some { x with scheduler := (schedulerRemove x.scheduler process).2 }
  | .next, x => some { x with scheduler := (schedulerNext x.scheduler).2 }
  | .dispatch, x => some ⟨(schedulerDispatch x.scheduler x.heap).2.1, (schedulerDispatch x.scheduler x.heap).2.2⟩
  | .yield, x => some ⟨(schedulerYield x.scheduler x.heap).2.1, (schedulerYield x.scheduler x.heap).2.2⟩
  | .others heap, x => some { x with heap := heap }

/-- Any sequence of calls on a new scheduler. -/
abbrev SchedulerRuns (heap : Heap Process) (x : Queueing) : Prop :=
  Runs SchedulerOp.exec (fun _ _ => True) ⟨schedulerCreate, heap⟩ x

theorem SchedulerOp.queue {x y : Queueing} {op : SchedulerOp} (hx : op.exec x = some y)
    (h : ∃ q, x.scheduler.Queue q) : ∃ q, y.scheduler.Queue q := by
  obtain ⟨q, h⟩ := h
  cases op with
  | add p =>
    cases hx
    have hcall := h.add p
    split at hcall
    · exact ⟨q, by rw [hcall]; exact h⟩
    · obtain ⟨s', hs, hq, -⟩ := hcall
      exact ⟨_, by rw [hs]; exact hq⟩
  | remove p =>
    cases hx
    have hcall := h.remove p
    split at hcall
    · exact ⟨q, by rw [hcall]; exact h⟩
    · obtain ⟨s', hs, hq, -⟩ := hcall
      exact ⟨_, by rw [hs]; exact hq⟩
  | next =>
    cases hx
    have hcall := h.next
    split at hcall
    · exact ⟨q, by rw [hcall]; exact h⟩
    · obtain ⟨s', hs, hq, -⟩ := hcall
      exact ⟨_, by rw [hs]; exact hq⟩
  | dispatch =>
    cases hx
    have hcall := h.dispatch x.heap
    split at hcall
    · exact ⟨q, by rw [hcall]; exact h⟩
    · obtain ⟨s', hs, hq, -⟩ := hcall
      exact ⟨_, by rw [hs]; exact hq⟩
    · obtain ⟨s', hs, hq, -⟩ := hcall
      exact ⟨_, by rw [hs]; exact hq⟩
  | yield =>
    cases hx
    have hcall := h.yield x.heap
    split at hcall
    · exact ⟨q, by rw [hcall]; exact h⟩
    · obtain ⟨s', hs, hq, -⟩ := hcall
      exact ⟨_, by rw [hs]; exact hq⟩
  | others heap =>
    cases hx
    exact ⟨q, h⟩

/-- The scheduler is the queue `s.fifo`: the array is in order and each call answers and moves on as
the queue does. -/
structure Scheduler.Refines (s : Scheduler) (heap : Heap Process) : Prop where
  entries : schedulerReady s = s.fifo.queue.map some
  count : s.count = s.fifo.queue.length
  bound : s.count ≤ schedulerInitialCapacity
  tail : s.tail = (s.head + s.count) % schedulerInitialCapacity
  outside : ∀ i < schedulerInitialCapacity, s.count ≤ i → s.readyQueue[schedulerIndexAt s i]? = some none
  add : ∀ p, match s.fifo.add schedulerInitialCapacity p with
    | none => schedulerAdd s p = (-1, s)
    | some f => ∃ s', schedulerAdd s p = (0, s') ∧ s'.fifo = f
  add_fails : ∀ p, (schedulerAdd s p).1 = -1 ↔ s.fifo.queue.length = schedulerInitialCapacity
  next : match s.fifo.next with
    | none => schedulerNext s = (none, s)
    | some (p, f) => ∃ s', schedulerNext s = (some p, s') ∧ s'.fifo = f
  remove : ∀ p, match s.fifo.remove p with
    | none => schedulerRemove s p = (-1, s)
    | some f => ∃ s', schedulerRemove s p = (0, s') ∧ s'.fifo = f
  dispatch : match s.fifo.dispatch (mayBecome heap .running) with
    | none => schedulerDispatch s heap = (-1, s, heap)
    | some (p, true, f) => ∃ s', schedulerDispatch s heap = (0, s', withProcessState heap p .running) ∧ s'.fifo = f
    | some (_, false, f) => ∃ s', schedulerDispatch s heap = (-1, s', heap) ∧ s'.fifo = f
  dispatch_unchanged : schedulerDispatch s heap = (-1, s, heap) ↔ s.current ≠ none ∨ s.fifo.queue = []
  yield : match s.fifo.yield schedulerInitialCapacity (mayBecome heap .ready) with
    | none => schedulerYield s heap = (-1, s, heap)
    | some (p, f) => ∃ s', schedulerYield s heap = (0, s', withProcessState heap p .ready) ∧ s'.fifo = f

theorem Scheduler.Queue.refines {s : Scheduler} {q : List ProcessPtr} (h : s.Queue q) (heap : Heap Process) :
    s.Refines heap := by
  have hqueue : s.fifo.queue = q := congrArg Fifo.queue h.fifo
  refine ⟨?_, ?_, ?_, h.tail, fun i hi hout => ?_, fun p => ?_, fun p => ?_, ?_, fun p => ?_, ?_, ?_, ?_⟩
  · rw [hqueue]
    exact schedulerReady_queue h
  · rw [hqueue]
    exact h.count
  · rw [h.count]
    exact h.le
  · unfold schedulerIndexAt
    rw [h.holds.cell i hi, List.getElem?_eq_none (by rw [← h.count]; exact hout)]
  · have hcall := h.add p
    split at hcall
    · exact hcall
    · obtain ⟨s', hx, -, hf⟩ := hcall
      exact ⟨s', hx, hf⟩
  · rw [hqueue]
    by_cases hlt : q.length < schedulerInitialCapacity
    · refine iff_of_false ?_ (by omega)
      rw [(schedulerAdd_ok h hlt p).1]
      decide
    · refine iff_of_true ?_ (by have := h.le; omega)
      unfold schedulerAdd
      rw [if_pos (by rw [h.count]; omega)]
  · have hcall := h.next
    split at hcall
    · exact hcall
    · obtain ⟨s', hx, -, hf⟩ := hcall
      exact ⟨s', hx, hf⟩
  · have hcall := h.remove p
    split at hcall
    · exact hcall
    · obtain ⟨s', hx, -, hf⟩ := hcall
      exact ⟨s', hx, hf⟩
  · have hcall := h.dispatch heap
    split at hcall
    · exact hcall
    · obtain ⟨s', hx, -, hf⟩ := hcall
      exact ⟨s', hx, hf⟩
    · obtain ⟨s', hx, -, hf⟩ := hcall
      exact ⟨s', hx, hf⟩
  · rw [hqueue]
    exact h.dispatch_unchanged heap
  · have hcall := h.yield heap
    split at hcall
    · exact hcall
    · obtain ⟨s', hx, -, hf⟩ := hcall
      exact ⟨s', hx, hf⟩

theorem scheduler_refines_fifo {heap : Heap Process} {x : Queueing} (h : SchedulerRuns heap x) :
    x.scheduler.Refines x.heap := by
  have hqueue : ∃ q, x.scheduler.Queue q :=
    Runs.holds (I := fun x => ∃ q, x.scheduler.Queue q) (fun _ _ _ hI _ hx => SchedulerOp.queue hx hI) h
      ⟨[], schedulerCreate_queue⟩
  obtain ⟨q, hq⟩ := hqueue
  exact hq.refines x.heap

/-- Two processes were added and the first removed again. -/
def firstRemoved : Scheduler := (schedulerRemove (schedulerAdd (schedulerAdd schedulerCreate 1).2 2).2 1).2

theorem scheduler_refines_firstRemoved :
    SchedulerRuns noProcesses ⟨firstRemoved, noProcesses⟩ ∧ firstRemoved.fifo.queue = [2] ∧
      firstRemoved.Refines noProcesses := by
  have hrun : SchedulerRuns noProcesses ⟨firstRemoved, noProcesses⟩ :=
    (((Runs.refl _).next (.add 1) trivial rfl).next (.add 2) trivial rfl).next (.remove 1) trivial rfl
  exact ⟨hrun, by decide, scheduler_refines_fifo hrun⟩

end EmblaOs
