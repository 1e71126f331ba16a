/-
A service record (service.h, service.c): the program it runs under a name, the process of its
current instance, what the last instance ended with, the restart policy and the flags the
supervisor keeps between ticks. Seconds are exact rationals.
-/
import EmblaOs.Process.Events

namespace EmblaOs

def serviceMaxDependencies : Nat := 16

/-- A non-NULL `Service *`. -/
abbrev ServicePtr := Nat

inductive ServiceState
  | stopped
  | running
  deriving DecidableEq, Repr

inductive RestartPolicy
  | never
  | onFailure
  | always
  deriving DecidableEq, Repr

/-- The three flags are `int` in the source and only ever 0 or 1. The dependencies are the used
entries of a 16-slot array. -/
structure Service where
  name : String
  state : ServiceState
  process : Option ProcessPtr
  lastExitCode : Int
  lastTermSignal : Int
  restartPolicy : RestartPolicy
  restartBaseDelaySeconds : ℚ
  restartMaxDelaySeconds : ℚ
  restartStabilityThresholdSeconds : ℚ
  maxConsecutiveRestarts : Int
  stopRequested : Bool
  consecutiveRestartCount : Int
  permanentlyFailed : Bool
  restartPending : Bool
  lastStartTime : ℚ
  restartAllowedAt : ℚ
  dependencies : List String
  dependenciesFit : dependencies.length ≤ serviceMaxDependencies
  deriving DecidableEq

/-- The record `service_create` fills in. -/
def serviceCreate (name : String) : Service where
  name := name
  state := .stopped
  process := none
  lastExitCode := -1
  lastTermSignal := -1
  restartPolicy := .never
  restartBaseDelaySeconds := 1
  restartMaxDelaySeconds := 300
  restartStabilityThresholdSeconds := 60
  maxConsecutiveRestarts := 5
  stopRequested := false
  consecutiveRestartCount := 0
  permanentlyFailed := false
  restartPending := false
  lastStartTime := 0
  restartAllowedAt := 0
  dependencies := []
  dependenciesFit := Nat.zero_le _

def serviceSetStopRequested (service : Service) (stopRequested : Bool) : Service :=
  { service with stopRequested := stopRequested }

def serviceSetRestartPending (service : Service) (pending : Bool) : Service :=
  { service with restartPending := pending }

def serviceSetConsecutiveRestartCount (service : Service) (count : Int) : Service :=
  { service with consecutiveRestartCount := count }

theorem dependencies_fit_snoc {dependencies : List String} {dependencyName : String}
    (h : ¬ dependencies.length ≥ serviceMaxDependencies) :
    (dependencies ++ [dependencyName]).length ≤ serviceMaxDependencies := by
  rw [List.length_append, List.length_singleton]
  omega

/-- The name is copied, which takes an allocation. -/
def serviceAddDependency (service : Service) (dependencyName : String) (host : Host) : Int × Service × Host :=
  if dependencyName = service.name then (-1, service, host)
  else if h : service.dependencies.length ≥ serviceMaxDependencies then (-1, service, host)
  else
    let (copy, host) := host.malloc
    if copy = false then (-1, service, host)
    else
      (0, { service with
        dependencies := service.dependencies ++ [dependencyName]
        dependenciesFit := dependencies_fit_snoc h }, host)

def serviceGetDependencyCount (service : Service) : Nat := service.dependencies.length

/-- What a read of a dependency gives: NULL, a stored name, or whatever lies where none is stored. -/
inductive DependencyName
  | null
  | stored (name : String)
  | outside
  deriving DecidableEq, Repr

/-- The index is a `size_t`; what is compared with the count is the `int` it is cut to. -/
def serviceGetDependencyName (service : Service) (index : BitVec 64) : DependencyName :=
  if (index.setWidth 32).toInt ≥ service.dependencies.length then .null
  else
    match service.dependencies[index.toNat]? with
    | some name => .stored name
    | none => .outside

/-- A heap before any `service_create`. -/
def noServices : Lib.Heap Service := .empty (serviceCreate "")

end EmblaOs
