/-
The ready-queue dispatcher (scheduler.c): a circular array of 16 slots and the slot of the
process dispatched last. `Scheduler.Queue s q` says that the array holds the list `q`; on that
reading every operation is the corresponding operation of a bounded FIFO list.
-/
import EmblaOs.Process.Basic
import EmblaOs.Lib.Ring

namespace EmblaOs

open Lib

def schedulerInitialCapacity : Nat := 16

structure Scheduler where
  readyQueue : List (Option ProcessPtr)
  head : Nat
  tail : Nat
  count : Nat
  current : Option ProcessPtr
  deriving DecidableEq, Repr

def schedulerCreate : Scheduler := ⟨List.replicate schedulerInitialCapacity none, 0, 0, 0, none⟩

def schedulerAdvance (index : Nat) : Nat := (index + 1) % schedulerInitialCapacity

def schedulerRetreat (index : Nat) : Nat :=
  (index + schedulerInitialCapacity - 1) % schedulerInitialCapacity

def schedulerIndexAt (s : Scheduler) (offset : Nat) : Nat := (s.head + offset) % schedulerInitialCapacity

def schedulerAdd (s : Scheduler) (process : ProcessPtr) : Int × Scheduler :=
  if s.count ≥ schedulerInitialCapacity then (-1, s)
  else
    (0, { s with
      readyQueue := s.readyQueue.set s.tail (some process)
      tail := schedulerAdvance s.tail
      count := s.count + 1 })

/-- The inner loop of `scheduler_remove`, `j` onwards, with `steps` iterations left. -/
def schedulerShift (s : Scheduler) : Nat → Nat → List (Option ProcessPtr) → List (Option ProcessPtr)
  | 0, _, queue => queue
  | steps + 1, j, queue =>
    schedulerShift s steps (j + 1)
      (queue.set (schedulerIndexAt s j) (queue[schedulerIndexAt s (j + 1)]?).join)

/-- The outer loop of `scheduler_remove`, `i` onwards, with `steps` iterations left. -/
def schedulerRemoveLoop (process : ProcessPtr) (s : Scheduler) : Nat → Nat → Int × Scheduler
  | 0, _ => (-1, s)
  | steps + 1, i =>
    if (s.readyQueue[schedulerIndexAt s i]?).join ≠ some process then
      schedulerRemoveLoop process s steps (i + 1)
    else
      let shifted := schedulerShift s (s.count - 1 - i) i s.readyQueue
      (0, { s with
        readyQueue := shifted.set (schedulerIndexAt s (s.count - 1)) none
        tail := schedulerRetreat s.tail
        count := s.count - 1 })

def schedulerRemove (s : Scheduler) (process : ProcessPtr) : Int × Scheduler :=
  if s.current = some process then (0, { s with current := none })
  else schedulerRemoveLoop process s s.count 0

def schedulerNext (s : Scheduler) : Option ProcessPtr × Scheduler :=
  if s.count = 0 then (none, s)
  else
    ((s.readyQueue[s.head]?).join, { s with
      readyQueue := s.readyQueue.set s.head none
      head := schedulerAdvance s.head
      count := s.count - 1 })

/-- The heap is there for the transition of the dispatched process. -/
def schedulerDispatch (s : Scheduler) (heap : Heap Process) : Int × Scheduler × Heap Process :=
  if s.current ≠ none then (-1, s, heap)
  else
    match schedulerNext s with
    | (none, s) => (-1, s, heap)
    | (some process, s) =>
      let (result, record) := processTransition (heap.read process) .running
      if result ≠ 0 then (-1, (schedulerAdd s process).2, heap)
      else (0, { s with current := some process }, heap.modify process fun _ => record)

def schedulerYield (s : Scheduler) (heap : Heap Process) : Int × Scheduler × Heap Process :=
  match s.current with
  | none => (-1, s, heap)
  | some current =>
    if s.count ≥ schedulerInitialCapacity then (-1, s, heap)
    else
      let (result, record) := processTransition (heap.read current) .ready
      if result ≠ 0 then (-1, s, heap)
      else
        let (result, s) := schedulerAdd { s with current := none } current
        (result, s, heap.modify current fun _ => record)

/-- The slots in use, front first: what the ready queue holds. -/
def schedulerReady (s : Scheduler) : List (Option ProcessPtr) :=
  (List.range s.count).map fun i => (s.readyQueue[schedulerIndexAt s i]?).join

/-! ## The ring as a list -/

/-- The ready queue holds `q`, front first. -/
structure Scheduler.Queue (s : Scheduler) (q : List ProcessPtr) : Prop where
  holds : Ring.Holds schedulerInitialCapacity s.readyQueue s.head q
  tail : s.tail = (s.head + s.count) % schedulerInitialCapacity
  count : s.count = q.length

theorem schedulerCreate_queue : schedulerCreate.Queue [] :=
  ⟨Ring.holds_empty (by decide), by decide, rfl⟩

theorem Scheduler.Queue.le {s : Scheduler} {q : List ProcessPtr} (h : s.Queue q) :
    q.length ≤ schedulerInitialCapacity := h.holds.fits

/-- `current` is no part of the queue. -/
theorem Scheduler.Queue.withCurrent {s : Scheduler} {q : List ProcessPtr} (h : s.Queue q)
    (c : Option ProcessPtr) : Scheduler.Queue { s with current := c } q :=
  ⟨h.holds, h.tail, h.count⟩

theorem schedulerReady_queue {s : Scheduler} {q : List ProcessPtr} (h : s.Queue q) :
    schedulerReady s = q.map some := by
  apply List.ext_getElem
  · simp [schedulerReady, h.count]
  · intro i hi hi'
    have hlt : i < q.length := by simpa using hi'
    have hcell := h.holds.cell i (lt_of_lt_of_le hlt h.le)
    simp only [schedulerReady, schedulerIndexAt, List.getElem_map, List.getElem_range, hcell,
      List.getElem?_eq_getElem hlt, Option.join_some]

theorem Scheduler.Queue.unique {s : Scheduler} {q q' : List ProcessPtr} (h : s.Queue q) (h' : s.Queue q') :
    q = q' := by
  apply List.ext_getElem?
  intro i
  rcases Nat.lt_or_ge i schedulerInitialCapacity with hi | hi
  · have h1 := h.holds.cell i hi
    rw [h'.holds.cell i hi] at h1
    exact (Option.some.inj h1).symm
  · rw [List.getElem?_eq_none (by have := h.le; omega), List.getElem?_eq_none (by have := h'.le; omega)]

theorem schedulerAdd_ok {s : Scheduler} {q : List ProcessPtr} (h : s.Queue q)
    (hlt : q.length < schedulerInitialCapacity) (process : ProcessPtr) :
    (schedulerAdd s process).1 = 0 ∧ (schedulerAdd s process).2.Queue (q ++ [process]) ∧
      (schedulerAdd s process).2.current = s.current := by
  have hc := h.count
  unfold schedulerAdd
  rw [if_neg (by omega)]
  refine ⟨rfl, ⟨?_, ?_, by simp [hc]⟩, rfl⟩
  · simp only
    rw [h.tail, hc]
    exact h.holds.push hlt process
  · simp only [schedulerAdvance, h.tail, Nat.mod_add_mod, Nat.add_assoc]

theorem schedulerNext_nil {s : Scheduler} (h : s.Queue []) : schedulerNext s = (none, s) := by
  have hc : s.count = 0 := h.count
  unfold schedulerNext
  rw [if_pos hc]

theorem schedulerNext_cons {s : Scheduler} {p : ProcessPtr} {q : List ProcessPtr} (h : s.Queue (p :: q)) :
    (schedulerNext s).1 = some p ∧ (schedulerNext s).2.Queue q ∧ (schedulerNext s).2.current = s.current := by
  have hc := h.count
  simp only [List.length_cons] at hc
  unfold schedulerNext
  rw [if_neg (by omega)]
  refine ⟨?_, ⟨h.holds.pop, ?_, by simp [hc]⟩, rfl⟩
  · rw [h.holds.front]; rfl
  · simp only [schedulerAdvance, h.tail, hc, Nat.mod_add_mod, Nat.add_sub_cancel]
    congr 1
    omega

/-! ## Removal from the middle -/

theorem schedulerShift_shifting {s : Scheduler} {q : List ProcessPtr} (h : s.Queue q) {i : Nat} :
    ∀ (steps j : Nat) (queue : List (Option ProcessPtr)), i ≤ j → j + steps + 1 = q.length →
      Ring.Shifting schedulerInitialCapacity queue s.head q i j →
      Ring.Shifting schedulerInitialCapacity (schedulerShift s steps j queue) s.head q i (q.length - 1)
  | 0, j, queue, _, hj, hs => by
    unfold schedulerShift
    rwa [show q.length - 1 = j by omega]
  | steps + 1, j, queue, hij, hj, hs => by
    unfold schedulerShift
    exact schedulerShift_shifting h steps (j + 1) _ (by omega) (by omega)
      (hs.step h.holds.head_lt hij (by omega) h.le)

theorem retreat_tail {s : Scheduler} {q : List ProcessPtr} (h : s.Queue q) (hpos : 0 < q.length) :
    schedulerRetreat s.tail = (s.head + (q.length - 1)) % schedulerInitialCapacity := by
  have hh := h.holds.head_lt
  have hle := h.le
  have hc := h.count
  have ht := h.tail
  unfold schedulerRetreat
  simp only [schedulerInitialCapacity] at *
  omega

/-- The removal loop from `i` on deletes the first occurrence at or after `i`, or fails without
any change. -/
theorem schedulerRemoveLoop_spec {s : Scheduler} {q : List ProcessPtr} (h : s.Queue q) (process : ProcessPtr) :
    ∀ (steps i : Nat), i + steps = q.length → process ∉ q.take i →
      (process ∉ q ∧ schedulerRemoveLoop process s steps i = (-1, s)) ∨
      (process ∈ q ∧ (schedulerRemoveLoop process s steps i).1 = 0 ∧
        (schedulerRemoveLoop process s steps i).2.Queue (q.erase process) ∧
        (schedulerRemoveLoop process s steps i).2.current = s.current)
  | 0, i, hi, hnot => by
    left
    rw [List.take_of_length_le (by omega)] at hnot
    exact ⟨hnot, rfl⟩
  | steps + 1, i, hi, hnot => by
    have hlt : i < q.length := by omega
    have hcell : (s.readyQueue[schedulerIndexAt s i]?).join = some q[i] := by
      unfold schedulerIndexAt
      rw [h.holds.cell i (by have := h.le; omega), List.getElem?_eq_getElem hlt]
      rfl
    unfold schedulerRemoveLoop
    rw [hcell]
    by_cases hp : q[i] = process
    · -- found: the elements behind it move up one place
      right
      rw [if_neg (by simp [hp])]
      have hmem : process ∈ q := hp ▸ List.getElem_mem hlt
      have herase : q.erase process = q.eraseIdx i := by
        rw [List.erase_eq_eraseIdx_of_idxOf]
        have : q = q.take i ++ q[i] :: q.drop (i + 1) := by simp
        rw [this, List.idxOf_append_of_notMem hnot, hp, List.idxOf_cons_self]
        simp; omega
      refine ⟨hmem, rfl, ?_, rfl⟩
      have hcount := h.count
      have hsh := schedulerShift_shifting h (s.count - 1 - i) i s.readyQueue (le_refl i) (by omega)
        (h.holds.shifting i)
      have hfin := hsh.finish h.holds.head_lt hlt h.le
      have hlen : (q.eraseIdx i).length = q.length - 1 := List.length_eraseIdx_of_lt hlt
      rw [herase]
      refine ⟨?_, ?_, by simp only [hlen, hcount]⟩
      · simp only [schedulerIndexAt, hcount]
        rw [hcount] at hfin
        exact hfin
      · simp only [hcount]
        exact retreat_tail h (by omega)
    · rw [if_pos (by simpa using hp)]
      refine schedulerRemoveLoop_spec h process steps (i + 1) (by omega) ?_
      rw [List.take_succ_eq_append_getElem hlt]
      simp only [List.mem_append, List.mem_singleton, not_or]
      exact ⟨hnot, fun e => hp e.symm⟩

theorem schedulerRemoveLoop_count (process : ProcessPtr) (s : Scheduler) :
    ∀ steps i, (schedulerRemoveLoop process s steps i).1 = 0 →
      (schedulerRemoveLoop process s steps i).2.count = s.count - 1 ∧ 0 < steps
  | 0, _, h => absurd h (by simp [schedulerRemoveLoop])
  | steps + 1, i, h => by
    unfold schedulerRemoveLoop at h ⊢
    split
    · rename_i hne
      rw [if_pos hne] at h
      exact ⟨(schedulerRemoveLoop_count process s steps (i + 1) h).1, Nat.succ_pos _⟩
    · exact ⟨rfl, Nat.succ_pos _⟩

/-- A successful removal is seen in `current` or in the ready queue. -/
theorem schedulerRemove_changes {s : Scheduler} {process : ProcessPtr} (h : (schedulerRemove s process).1 = 0) :
    ¬ ((schedulerRemove s process).2.current = s.current ∧
      schedulerReady (schedulerRemove s process).2 = schedulerReady s) := by
  rintro ⟨hc, hr⟩
  unfold schedulerRemove at h hc hr
  split at h
  · rename_i hcur
    rw [if_pos hcur, hcur] at hc
    cases hc
  · rename_i hcur
    rw [if_neg hcur] at hr
    obtain ⟨h1, h2⟩ := schedulerRemoveLoop_count process s s.count 0 h
    have hlen := congrArg List.length hr
    simp only [schedulerReady, List.length_map, List.length_range, h1] at hlen
    omega

/-- A queued process that is not current leaves the queue, everything else in order. -/
theorem schedulerRemove_queued {s : Scheduler} {q : List ProcessPtr} (h : s.Queue q) {process : ProcessPtr}
    (hc : s.current ≠ some process) (hmem : process ∈ q) :
    (schedulerRemove s process).1 = 0 ∧ (schedulerRemove s process).2.Queue (q.erase process) ∧
      (schedulerRemove s process).2.current = s.current := by
  unfold schedulerRemove
  rw [if_neg hc]
  rcases schedulerRemoveLoop_spec h process s.count 0 (by rw [Nat.zero_add]; exact h.count) (by simp) with
    ⟨hno, -⟩ | ⟨-, h1, h2, h3⟩
  · exact absurd hmem hno
  · exact ⟨h1, h2, h3⟩

theorem schedulerRemove_current {s : Scheduler} {process : ProcessPtr} (hc : s.current = some process) :
    schedulerRemove s process = (0, { s with current := none }) := by
  unfold schedulerRemove
  rw [if_pos hc]

/-- A process that is neither current nor queued is refused, and nothing changes. -/
theorem schedulerRemove_absent {s : Scheduler} {q : List ProcessPtr} (h : s.Queue q) {process : ProcessPtr}
    (hc : s.current ≠ some process) (hno : process ∉ q) : schedulerRemove s process = (-1, s) := by
  unfold schedulerRemove
  rw [if_neg hc]
  rcases schedulerRemoveLoop_spec h process s.count 0 (by rw [Nat.zero_add]; exact h.count) (by simp) with
    ⟨-, h1⟩ | ⟨hmem, -⟩
  · exact h1
  · exact absurd hmem hno

/-! ## Dispatch -/

theorem schedulerDispatch_busy {s : Scheduler} {heap : Heap Process} (hc : s.current ≠ none) :
    schedulerDispatch s heap = (-1, s, heap) := by
  unfold schedulerDispatch
  rw [if_pos hc]

theorem schedulerDispatch_nil {s : Scheduler} {heap : Heap Process} (h : s.Queue []) :
    schedulerDispatch s heap = (-1, s, heap) := by
  unfold schedulerDispatch
  rw [schedulerNext_nil h]
  split <;> rfl

/-- The front becomes current when its transition is allowed. -/
theorem schedulerDispatch_ok {s : Scheduler} {heap : Heap Process} {p : ProcessPtr} {q : List ProcessPtr}
    (h : s.Queue (p :: q)) (hc : s.current = none)
    (ht : processCanTransition (heap.read p).state .running = true) :
    ∃ s', schedulerDispatch s heap = (0, s', heap.modify p fun r => { r with state := .running }) ∧
      s'.Queue q ∧ s'.current = some p := by
  obtain ⟨h1, h2, -⟩ := schedulerNext_cons h
  unfold schedulerDispatch
  rw [if_neg (by simp [hc])]
  rcases hn : schedulerNext s with ⟨r, s1⟩
  rw [hn] at h1 h2
  simp only at h1 h2
  subst h1
  simp only [processTransition_ok ht]
  exact ⟨_, rfl, h2.withCurrent _, rfl⟩

/-- Otherwise it goes to the back of the queue. -/
theorem schedulerDispatch_refused {s : Scheduler} {heap : Heap Process} {p : ProcessPtr} {q : List ProcessPtr}
    (h : s.Queue (p :: q)) (hc : s.current = none)
    (ht : processCanTransition (heap.read p).state .running = false) :
    ∃ s', schedulerDispatch s heap = (-1, s', heap) ∧ s'.Queue (q ++ [p]) ∧ s'.current = none := by
  obtain ⟨h1, h2, h3⟩ := schedulerNext_cons h
  have hle := h.le
  unfold schedulerDispatch
  rw [if_neg (by simp [hc])]
  rcases hn : schedulerNext s with ⟨r, s1⟩
  rw [hn] at h1 h2 h3
  simp only at h1 h2 h3
  subst h1
  obtain ⟨-, ha2, ha3⟩ := schedulerAdd_ok h2 (by simpa using hle) p
  simp only [processTransition_refused ht]
  exact ⟨_, rfl, ha2, by rw [ha3, h3, hc]⟩

end EmblaOs
