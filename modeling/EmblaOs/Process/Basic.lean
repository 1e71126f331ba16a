/-
A process record and its state machine (process.h, process.c). A `Process *` is an address in a
heap of records; the table, the groups, the scheduler and the services all hold such addresses.
-/
import EmblaOs.Lib.Heap
import Mathlib.Data.Rat.Defs

namespace EmblaOs

/-- `UINT32_MAX`. -/
def uint32Max : Nat := 4294967295

/-! Process and group ids are `uint32_t`, here `Nat` with the bounds stated where a counter grows;
host pids and host group ids are `pid_t`, here `Int`. -/

def emblaRootPid : Nat := 0
def emblaInvalidPid : Nat := uint32Max
def emblaInvalidHostPid : Int := 0
def emblaInvalidPgid : Nat := uint32Max
def emblaInvalidHostPgid : Int := 0

/-- A non-NULL `Process *`. -/
abbrev ProcessPtr := Nat

inductive ProcessState
  | created
  | ready
  | running
  | stopped
  | blocked
  | terminated
  deriving DecidableEq, Repr

/-- The seconds of the two CPU times are exact rationals; -1 in any of the last five fields means
that nothing was recorded yet. -/
structure Process where
  id : Nat
  parentId : Nat
  groupId : Nat
  hostId : Int
  state : ProcessState
  name : String
  exitCode : Int
  termSignal : Int
  cpuUserSeconds : ℚ
  cpuSystemSeconds : ℚ
  maxRssBytes : Int
  deriving DecidableEq

/-- The record `process_create` fills in. -/
def processCreate (id parentId groupId : Nat) (name : String) : Process where
  id := id
  parentId := parentId
  groupId := groupId
  hostId := emblaInvalidHostPid
  state := .created
  name := name
  exitCode := -1
  termSignal := -1
  cpuUserSeconds := -1
  cpuSystemSeconds := -1
  maxRssBytes := -1

def processCanTransition : ProcessState → ProcessState → Bool
  | .created, next => next == .ready
  | .ready, next => next == .running || next == .stopped || next == .terminated
  | .running, next => next == .ready || next == .stopped || next == .blocked || next == .terminated
  | .stopped, next => next == .running || next == .terminated
  | .blocked, next => next == .ready || next == .terminated
  | .terminated, _ => false

/-- The return value and the record after the call. -/
def processTransition (process : Process) (nextState : ProcessState) : Int × Process :=
  if processCanTransition process.state nextState then (0, { process with state := nextState })
  else (-1, process)

/-- A heap before any `process_create`. -/
def noProcesses : Lib.Heap Process := .empty (processCreate 0 0 0 "")

/-! ## Transitions -/

theorem processTransition_ok {process : Process} {next : ProcessState}
    (h : processCanTransition process.state next = true) :
    processTransition process next = (0, { process with state := next }) := by
  simp [processTransition, h]

theorem processTransition_refused {process : Process} {next : ProcessState}
    (h : processCanTransition process.state next = false) :
    processTransition process next = (-1, process) := by
  simp [processTransition, h]

/-- A transition writes the state field and nothing else. -/
theorem processTransition_eq (process : Process) (next : ProcessState) :
    (processTransition process next).2 =
      { process with state := if processCanTransition process.state next then next else process.state } := by
  unfold processTransition
  split <;> simp

theorem processTransition_ret (process : Process) (next : ProcessState) :
    (processTransition process next).1 = 0 ↔ processCanTransition process.state next = true := by
  unfold processTransition
  split <;> simp_all

/-- Every state but `CREATED` and `TERMINATED` itself may end. -/
theorem canTransition_terminated (s : ProcessState) :
    processCanTransition s .terminated = true ↔ s ≠ .created ∧ s ≠ .terminated := by
  cases s <;> decide

theorem canTransition_running (s : ProcessState) :
    processCanTransition s .running = true ↔ s = .ready ∨ s = .stopped := by
  cases s <;> decide

theorem canTransition_stopped (s : ProcessState) :
    processCanTransition s .stopped = true ↔ s = .ready ∨ s = .running := by
  cases s <;> decide

/-- No transition stays where it is. -/
theorem canTransition_ne {s t : ProcessState} (h : processCanTransition s t = true) : s ≠ t := by
  rintro rfl
  cases s <;> cases h

end EmblaOs
