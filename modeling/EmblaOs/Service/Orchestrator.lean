/-
Starting and stopping whole registries in dependency order and the supervisor's steps
(service_orchestrator.c). The operations a program may use on its services are collected in `Op`;
a run is a list of them.
-/
import EmblaOs.Service.Restart
import EmblaOs.Service.Order
import EmblaOs.Lib.Runs

namespace EmblaOs

open Lib Relation

/-- `SERVICE_ORCHESTRATOR_KILL_WAIT_SECONDS`. -/
def serviceOrchestratorKillWaitSeconds : ℚ := 2

namespace World

def malloc (w : World) : Bool × World :=
  let (ok, host) := w.embla.host.malloc
  (ok, w.withEmbla { w.embla with host := host })

/-- `service_registry_drain_one_event`. -/
def drainOneEvent (w : World) : Int × World :=
  let (result, e) := serviceRegistryDrainOneEvent w.embla
  (result, w.withEmbla e)

/-- The buffer of the order and the call that fills it, as `start_all` and `stop_all` begin; the
order is there when the call returned 0. What the fresh buffer holds is never read. -/
def startOrder (registry : ServiceRegistry) (w : World) : Option (Option (List ServicePtr) × World) :=
  let (order, w) := w.malloc
  if order = false then some (none, w)
  else
    match serviceRegistryComputeStartOrder w.services registry (fun _ => 0) 0 w.embla.host with
    | none => none
    | some (result, out, count, host) =>
      let w := w.withEmbla { w.embla with host := host }
      if result ≠ 0 then some (none, w) else some (some ((List.range count).map out), w)

end World

/-- `all_deps_running` of `service_registry_start_all`. -/
def allDependenciesRunning (registry : ServiceRegistry) (service : ServicePtr) (w : World) : Bool :=
  (w.service service).dependencies.all fun name =>
    match serviceRegistryGet w.services registry name with
    | none => false
    | some dep => (w.service dep).state = .running

def startAllLoop (registry : ServiceRegistry) : List ServicePtr → Int → World → Int × World
  | [], started, w => (started, w)
  | service :: rest, started, w =>
    if allDependenciesRunning registry service w = false then startAllLoop registry rest started w
    else
      let (result, w) := serviceStart service w
      startAllLoop registry rest (if result = 0 then started + 1 else started) w

def serviceRegistryStartAll (registry : ServiceRegistry) (w : World) : Option (Int × World) :=
  if serviceRegistryCount registry = 0 then some (0, w)
  else
    match w.startOrder registry with
    | none => none
    | some (none, w) => some (-1, w)
    | some (some order, w) => some (startAllLoop registry order 0 w)

/-- `none` when the loop has not ended after `fuel` rounds. -/
def serviceOrchestratorWaitForTermination (service : ServicePtr) (deadline : ℚ) : Nat → World → Option (Int × World)
  | 0, _ => none
  | fuel + 1, w =>
    let (now, w) := w.monotonicNow
    if now < deadline then
      let (reapResult, w) := serviceReap service w
      if reapResult = 1 then some (1, w)
      else if reapResult < 0 then some (-1, w)
      else
        let (drainResult, w) := w.drainOneEvent
        if drainResult < 0 then some (-1, w)
        else serviceOrchestratorWaitForTermination service deadline fuel w
    else some (0, w)

/-- The escalation of `service_registry_stop_all` for a service that did not end in time. -/
def stopAllEscalate (service : ServicePtr) (fuel : Nat) (terminated : Int) (w : World) : Option (Int × World) :=
  let (killed, w) := serviceKill service w
  if killed = 0 then
    let (now, w) := w.monotonicNow
    serviceOrchestratorWaitForTermination service (now + serviceOrchestratorKillWaitSeconds) fuel w
  else some (terminated, w)

/-- One service of the loop of `service_registry_stop_all`: 1 when it counts as stopped. -/
def stopAllOne (service : ServicePtr) (timeoutSeconds : ℚ) (fuel : Nat) (w : World) : Option (Int × World) :=
  if (w.service service).state ≠ .running then some (0, w)
  else
    let (result, w) := serviceStop service w
    if result ≠ 0 then some (0, w)
    else
      let (now, w) := w.monotonicNow
      match serviceOrchestratorWaitForTermination service (now + timeoutSeconds) fuel w with
      | none => none
      | some (terminated, w) => if terminated ≠ 1 then stopAllEscalate service fuel terminated w else some (1, w)

def stopAllLoop (timeoutSeconds : ℚ) (fuel : Nat) : List ServicePtr → Int → World → Option (Int × World)
  | [], stopped, w => some (stopped, w)
  | service :: rest, stopped, w =>
    match stopAllOne service timeoutSeconds fuel w with
    | none => none
    | some (terminated, w) =>
      stopAllLoop timeoutSeconds fuel rest (if terminated = 1 then stopped + 1 else stopped) w

/-- `none` when one of the waits takes more than `fuel` rounds. -/
def serviceRegistryStopAll (registry : ServiceRegistry) (timeoutSeconds : ℚ) (fuel : Nat) (w : World) :
    Option (Int × World) :=
  if serviceRegistryCount registry = 0 then some (0, w)
  else
    match w.startOrder registry with
    | none => none
    | some (none, w) => some (-1, w)
    | some (some order, w) => stopAllLoop timeoutSeconds fuel order.reverse 0 w

/-! ## The supervisor -/

/-- The inner loop of `service_registry_supervise`: drains until there is nothing to drain. -/
def superviseDrain : Nat → World → Option World
  | 0, _ => none
  | fuel + 1, w =>
    let (result, w) := w.drainOneEvent
    if result = 1 then superviseDrain fuel w else some w

/-- The ticks of one round; a tick's result is only logged. -/
def superviseTicks : List ServicePtr → World → World
  | [], w => w
  | service :: rest, w => superviseTicks rest (serviceTick service w).2

/-- The loop of `service_registry_supervise` from its round `round` on; `shutdown` tells for each
round whether `embla_shutdown_was_requested` by then. -/
def superviseLoop (registry : ServiceRegistry) (shutdown : Nat → Bool) (fuel : Nat) : Nat → Nat → World → Option World
  | 0, _, _ => none
  | rounds + 1, round, w =>
    if shutdown round then some w
    else
      match superviseDrain fuel w with
      | none => none
      | some w => superviseLoop registry shutdown fuel rounds (round + 1) (superviseTicks registry.services w)

def serviceRegistrySupervise (registry : ServiceRegistry) (stopTimeoutSeconds : ℚ) (shutdown : Nat → Bool) (fuel : Nat)
    (w : World) : Option (Int × World) :=
  match serviceRegistryStartAll registry w with
  | none => none
  | some (started, w) =>
    if started < 0 then some (-1, w)
    else
      match superviseLoop registry shutdown fuel fuel 0 w with
      | none => none
      | some w => serviceRegistryStopAll registry stopTimeoutSeconds fuel w

/-! ## Runs -/

inductive Op
  | start (service : ServicePtr)
  | stop (service : ServicePtr)
  | kill (service : ServicePtr)
  | reap (service : ServicePtr)
  | tick (service : ServicePtr)
  | drain
  | startAll (registry : ServiceRegistry)
  | stopAll (registry : ServiceRegistry) (timeoutSeconds : ℚ) (fuel : Nat)

/-- The world after the operation, `none` while it has not returned. -/
def Op.exec : Op → World → Option World
  | .start s, w => some (serviceStart s w).2
  | .stop s, w => some (serviceStop s w).2
  | .kill s, w => some (serviceKill s w).2
  | .reap s, w => some (serviceReap s w).2
  | .tick s, w => some (serviceTick s w).2
  | .drain, w => some w.drainOneEvent.2
  | .startAll registry, w => (serviceRegistryStartAll registry w).map Prod.snd
  | .stopAll registry timeoutSeconds fuel, w => (serviceRegistryStopAll registry timeoutSeconds fuel w).map Prod.snd

/-- A run each of whose operations meets `ok` in the world it starts in. -/
abbrev RunWhere (ok : World → Op → Prop) : World → World → Prop := Lib.Runs Op.exec ok

/-- Any run. -/
abbrev Run : World → World → Prop := RunWhere fun _ _ => True

/-- The flags of a service that was created and not used yet; name, policy, delays and dependencies
are whatever they were set to. -/
structure Service.Fresh (service : Service) : Prop where
  state : service.state = .stopped
  process : service.process = none
  stopRequested : service.stopRequested = false
  permanentlyFailed : service.permanentlyFailed = false
  restartPending : service.restartPending = false
  consecutiveRestartCount : service.consecutiveRestartCount = 0

/-- A runtime right after `embla_create`, services right after their configuration, no calls. -/
structure World.Fresh (w : World) : Prop where
  embla : ∃ host, w.embla = emblaCreate host
  services : ∀ s, (w.service s).Fresh
  calls : w.calls = []

/-- The world in which a program that manages the one service `service` starts. -/
def World.boot (service : Service) (host : Host) : World := ⟨emblaCreate host, (noServices.alloc service).2, []⟩

theorem World.boot_fresh {service : Service} (h : service.Fresh) (host : Host) : (World.boot service host).Fresh := by
  refine ⟨⟨host, rfl⟩, fun s => ?_, rfl⟩
  rcases eq_or_ne s 0 with rfl | hne
  · exact h
  · rw [show (World.boot service host).service s = serviceCreate "" from Heap.read_alloc_of_ne _ _ hne]
    exact ⟨rfl, rfl, rfl, rfl, rfl, rfl⟩

/-- The web service and its database on a host that reports these events. -/
def webAndDbWith (answers : List Wait4Answer) : World := ⟨emblaCreate (.generous answers [] 0), webAndDb, []⟩

theorem webAndDbWith_fresh (answers : List Wait4Answer) : (webAndDbWith answers).Fresh := by
  refine ⟨⟨_, rfl⟩, fun s => ?_, rfl⟩
  show (webAndDb.read s).Fresh
  unfold webAndDb
  rcases eq_or_ne s 1 with rfl | hdb
  · exact ⟨rfl, rfl, rfl, rfl, rfl, rfl⟩
  rw [Heap.read_alloc_of_ne _ _ hdb]
  rcases eq_or_ne s 0 with rfl | hweb
  · exact ⟨rfl, rfl, rfl, rfl, rfl, rfl⟩
  rw [Heap.read_alloc_of_ne _ _ hweb]
  exact ⟨rfl, rfl, rfl, rfl, rfl, rfl⟩

/-- Both are started, the database as process 0 with pid 1, then the web service with pid 2. -/
def bothRunning (answers : List Wait4Answer) : World := (serviceStart 0 (serviceStart 1 (webAndDbWith answers)).2).2

theorem bothRunning_run (answers : List Wait4Answer) : Run (webAndDbWith answers) (bothRunning answers) :=
  ((Runs.refl _).next (.start 1) trivial rfl).next (.start 0) trivial rfl

end EmblaOs
