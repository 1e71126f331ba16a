/-
The host operating system as Embla sees it: what each host call answers next, and the calls made
so far. The answers are infinite streams fixed from the outside, so that a statement for every
host is a statement for every behaviour of fork, setpgid, kill, wait4, malloc and the clock, in
any order. `struct Executor` itself holds no data.
-/
import EmblaOs.Process.Basic
import Mathlib.Data.Stream.Defs

namespace EmblaOs

/-- A pid as the host hands it out to a parent. -/
structure HostPid where
  pid : Int
  pos : 0 < pid
  deriving DecidableEq

theorem HostPid.succ_pos (n : Nat) : 0 < (n : Int) + 1 := by omega

/-- What the `WIF…` and `W…` macros tell about a wait status. -/
inductive WaitStatus
  | exited (code : Int)
  | signaled (signal : Int)
  | stopped (signal : Int)
  | continued
  | other
  deriving DecidableEq, Repr

structure Timeval where
  sec : Int
  usec : Int
  deriving DecidableEq, Repr

/-- The fields of `struct rusage` that Embla reads. -/
structure Rusage where
  utime : Timeval
  stime : Timeval
  maxrss : Int
  deriving DecidableEq, Repr

/-- A change of state of some child, as `wait4` reports it. -/
structure ChildEvent where
  hostId : HostPid
  status : WaitStatus
  usage : Rusage
  deriving DecidableEq

/-- What `wait4(-1, …, WNOHANG | WUNTRACED | WCONTINUED)` ends with after its EINTR retries. -/
inductive Wait4Answer
  | event (event : ChildEvent)
  | nothing
  | echild
  | error
  deriving DecidableEq

/-- What there is besides a report. -/
theorem Wait4Answer.silent {answer : Wait4Answer} (h : ∀ event, answer ≠ .event event) :
    answer = .nothing ∨ answer = .echild ∨ answer = .error := by
  cases answer with
  | event event => exact absurd rfl (h event)
  | nothing => exact .inl rfl
  | echild => exact .inr (.inl rfl)
  | error => exact .inr (.inr rfl)

inductive SetpgidAnswer
  | ok
  | eacces
  | error
  deriving DecidableEq, Repr

inductive KillAnswer
  | ok
  | esrch
  | error
  deriving DecidableEq, Repr

inductive Signal
  | sigterm
  | sigkill
  | sigstop
  | sigcont
  deriving DecidableEq, Repr

inductive Platform
  | linux
  | darwin
  deriving DecidableEq, Repr

/-- A host call made on Embla's behalf, with what matters of its answer. -/
inductive HostCall
  | forked (pid : Int) (group : Int)
  | killed (pid : Int) (signal : Signal) (answer : KillAnswer)
  | killedGroup (group : Int) (signal : Signal) (answer : KillAnswer)
  | collected (pid : Int)
  | reported (event : ChildEvent)
  deriving DecidableEq

/-- The answers to come and the calls made, latest first. -/
structure Host where
  platform : Platform
  /-- does the next `malloc` or `calloc` succeed -/
  allocs : Stream' Bool
  /-- the next `fork`, in the parent -/
  forks : Stream' (Option HostPid)
  setpgids : Stream' SetpgidAnswer
  kills : Stream' KillAnswer
  /-- does the next blocking `waitpid` on a killed child succeed -/
  waitpids : Stream' Bool
  wait4s : Stream' Wait4Answer
  clock : Stream' ℚ
  /-- has somebody called `embla_stop` by the next look at the run loop's condition -/
  stops : Stream' Bool
  trace : List HostCall

namespace Host

def malloc (h : Host) : Bool × Host := (h.allocs.head, { h with allocs := h.allocs.tail })

def fork (group : Int) (h : Host) : Option HostPid × Host :=
  let h' := { h with forks := h.forks.tail }
  match h.forks.head with
  | none => (none, h')
  | some p => (some p, { h' with trace := .forked p.pid group :: h.trace })

def setpgid (h : Host) : SetpgidAnswer × Host := (h.setpgids.head, { h with setpgids := h.setpgids.tail })

def kill (pid : Int) (signal : Signal) (h : Host) : KillAnswer × Host :=
  (h.kills.head, { h with kills := h.kills.tail, trace := .killed pid signal h.kills.head :: h.trace })

/-- `kill(-group, signal)`. -/
def killGroup (group : Int) (signal : Signal) (h : Host) : KillAnswer × Host :=
  (h.kills.head, { h with kills := h.kills.tail, trace := .killedGroup group signal h.kills.head :: h.trace })

def waitpid (pid : Int) (h : Host) : Bool × Host :=
  let h' := { h with waitpids := h.waitpids.tail }
  if h.waitpids.head then (true, { h' with trace := .collected pid :: h.trace }) else (false, h')

def wait4 (h : Host) : Wait4Answer × Host :=
  let h' := { h with wait4s := h.wait4s.tail }
  match h.wait4s.head with
  | .event e => (.event e, { h' with trace := .reported e :: h.trace })
  | a => (a, h')

/-- `service_monotonic_now`. -/
def monotonicNow (h : Host) : ℚ × Host := (h.clock.head, { h with clock := h.clock.tail })

def stopRequest (h : Host) : Bool × Host := (h.stops.head, { h with stops := h.stops.tail })

/-- A poll moves on in the child events and in nothing else. -/
@[simp] theorem wait4_rest (h : Host) : h.wait4.2.platform = h.platform ∧ h.wait4.2.clock = h.clock ∧
    h.wait4.2.allocs = h.allocs ∧ h.wait4.2.forks = h.forks ∧ h.wait4.2.setpgids = h.setpgids ∧
    h.wait4.2.kills = h.kills ∧ h.wait4.2.wait4s = h.wait4s.tail := by
  unfold wait4
  cases h.wait4s.head <;> exact ⟨rfl, rfl, rfl, rfl, rfl, rfl, rfl⟩

end Host

/-- A host that refuses nothing: the forks hand out 1, 2, 3 and so on, `wait4` answers `answers` and
then nothing, the clock shows `times` and then stands at `now`. -/
def Host.generous (answers : List Wait4Answer) (times : List ℚ) (now : ℚ) : Host where
  platform := .linux
  allocs := fun _ => true
  forks := fun n => some ⟨n + 1, HostPid.succ_pos n⟩
  setpgids := fun _ => .ok
  kills := fun _ => .ok
  waitpids := fun _ => true
  wait4s := fun n => answers.getD n .nothing
  clock := fun n => times.getD n now
  stops := fun _ => false
  trace := []

/-- `platform_normalize_max_rss`. -/
def platformNormalizeMaxRss : Platform → Int → Int
  | .linux, raw => raw * 1024
  | .darwin, raw => raw

end EmblaOs
