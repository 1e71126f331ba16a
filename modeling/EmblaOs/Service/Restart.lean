/-
The restart policy (service_restart.c): one tick of a service reaps an instance that ended and
schedules its successor, or starts the successor once its delay is over.
-/
import EmblaOs.Service.Lifecycle

namespace EmblaOs

inductive ServiceTickResult
  | nothing
  | waiting
  | restarted
  | reapedNoRestart
  | reapedRestartScheduled
  | gaveUp
  | error
  deriving DecidableEq, Repr

/-- The delay doubles with every restart in a row, up to 30 times and up to the maximum. -/
def serviceRestartComputeDelay (service : Service) : ℚ :=
  let exponent := service.consecutiveRestartCount - 1
  let exponent := if exponent < 0 then 0 else exponent
  let exponent := if exponent > 30 then 30 else exponent
  let delay := service.restartBaseDelaySeconds * 2 ^ exponent.toNat
  if delay > service.restartMaxDelaySeconds then service.restartMaxDelaySeconds else delay

def Service.wasCleanExit (service : Service) : Bool := service.lastTermSignal = -1 && service.lastExitCode = 0

/-- `should_restart` of `service_tick`. -/
def Service.shouldRestart (service : Service) : Bool :=
  match service.restartPolicy with
  | .always => true
  | .onFailure => !service.wasCleanExit
  | .never => false

/-- An instance that ran for the stability threshold ends the row of restarts. -/
def Service.restabilised (now : ℚ) (service : Service) : Service :=
  if now - service.lastStartTime ≥ service.restartStabilityThresholdSeconds then
    serviceSetConsecutiveRestartCount service 0
  else service

/-- The end of `service_tick`, once the policy calls for a restart. -/
def serviceScheduleRestart (service : ServicePtr) (w : World) : ServiceTickResult × World :=
  let (now, w) := w.monotonicNow
  let w := w.modifyService service (Service.restabilised now)
  let newCount := (w.service service).consecutiveRestartCount + 1
  let w := w.modifyService service fun s => serviceSetConsecutiveRestartCount s newCount
  if newCount > (w.service service).maxConsecutiveRestarts then
    (.gaveUp, w.modifyService service fun s => { s with permanentlyFailed := true })
  else
    let delay := serviceRestartComputeDelay (w.service service)
    (.reapedRestartScheduled, w.modifyService service fun s =>
      { s with restartAllowedAt := now + delay, restartPending := true })

/-- `service_tick` with a restart pending. -/
def serviceTickPending (service : ServicePtr) (w : World) : ServiceTickResult × World :=
  let (now, w) := w.monotonicNow
  if now < (w.service service).restartAllowedAt then (.waiting, w)
  else
    let w := w.modifyService service fun s => serviceSetRestartPending s false
    let (result, w) := serviceStart service w
    if result ≠ 0 then (.error, w) else (.restarted, w)

def serviceTick (service : ServicePtr) (w : World) : ServiceTickResult × World :=
  if (w.service service).restartPending then serviceTickPending service w
  else
    let (reapResult, w) := serviceReap service w
    if reapResult < 0 then (.error, w)
    else if reapResult = 0 then (.nothing, w)
    else if (w.service service).stopRequested then
      (.reapedNoRestart, w.modifyService service fun s => serviceSetStopRequested s false)
    else if (w.service service).shouldRestart = false then (.reapedNoRestart, w)
    else serviceScheduleRestart service w

/-! ## What a tick does -/

/-- The restarts in a row counted with the one at hand. -/
def Service.nextRestartCount (now : ℚ) (service : Service) : Int :=
  (service.restabilised now).consecutiveRestartCount + 1

/-- The record with the restart at hand counted. -/
def Service.counted (now : ℚ) (service : Service) : Service :=
  serviceSetConsecutiveRestartCount service (service.nextRestartCount now)

/-- The record after a scheduled restart or after giving up. -/
def Service.rescheduled (now : ℚ) (service : Service) : Service :=
  if service.nextRestartCount now > service.maxConsecutiveRestarts then
    { service.counted now with permanentlyFailed := true }
  else
    { service.counted now with
      restartAllowedAt := now + serviceRestartComputeDelay (service.counted now)
      restartPending := true }

/-- Counting overwrites what the stability check wrote. -/
theorem Service.restabilised_counted (now : ℚ) (service : Service) :
    serviceSetConsecutiveRestartCount (service.restabilised now)
      ((service.restabilised now).consecutiveRestartCount + 1) = service.counted now := by
  unfold Service.counted Service.nextRestartCount
  by_cases hstable : now - service.lastStartTime ≥ service.restartStabilityThresholdSeconds
  · simp only [Service.restabilised, if_pos hstable]
    rfl
  · simp only [Service.restabilised, if_neg hstable]

theorem Service.rescheduled_gaveUp {now : ℚ} {service : Service}
    (h : service.nextRestartCount now > service.maxConsecutiveRestarts) :
    service.rescheduled now = { service.counted now with permanentlyFailed := true } := by
  unfold Service.rescheduled
  rw [if_pos h]

theorem Service.rescheduled_pending {now : ℚ} {service : Service}
    (h : ¬ service.nextRestartCount now > service.maxConsecutiveRestarts) :
    service.rescheduled now =
      { service.counted now with
        restartAllowedAt := now + serviceRestartComputeDelay (service.counted now)
        restartPending := true } := by
  unfold Service.rescheduled
  rw [if_neg h]

theorem Service.rescheduled_kept (now : ℚ) (service : Service) :
    (service.rescheduled now).state = service.state ∧ (service.rescheduled now).process = service.process := by
  unfold Service.rescheduled
  split <;> exact ⟨rfl, rfl⟩

theorem serviceScheduleRestart_eq (s : ServicePtr) (w : World) :
    serviceScheduleRestart s w =
      (if (w.service s).nextRestartCount w.embla.host.clock.head > (w.service s).maxConsecutiveRestarts then .gaveUp
        else .reapedRestartScheduled,
        (w.withEmbla w.embla.ticked).modifyService s (Service.rescheduled w.embla.host.clock.head)) := by
  have hcounted := Service.restabilised_counted w.embla.host.clock.head (w.service s)
  unfold serviceScheduleRestart
  simp only [World.monotonicNow_eq, World.service_modifyService_self, World.service_withEmbla,
    World.modifyService_modifyService, hcounted]
  by_cases hgive : (w.service s).nextRestartCount w.embla.host.clock.head > (w.service s).maxConsecutiveRestarts
  · rw [if_pos hgive, if_pos (show ((w.service s).restabilised _).consecutiveRestartCount + 1 >
      ((w.service s).counted _).maxConsecutiveRestarts from hgive)]
    refine Prod.ext rfl (World.modifyService_congr _ ?_)
    rw [World.service_withEmbla, Service.rescheduled_gaveUp hgive, ← hcounted]
  · rw [if_neg hgive, if_neg (show ¬ ((w.service s).restabilised _).consecutiveRestartCount + 1 >
      ((w.service s).counted _).maxConsecutiveRestarts from hgive)]
    refine Prod.ext rfl (World.modifyService_congr _ ?_)
    rw [World.service_withEmbla, Service.rescheduled_pending hgive, ← hcounted]

/-- The world in which a due restart calls `service_start`: the clock read, the flag cleared. -/
def World.restartCleared (s : ServicePtr) (w : World) : World :=
  (w.withEmbla w.embla.ticked).modifyService s fun r => serviceSetRestartPending r false

theorem World.service_restartCleared (s : ServicePtr) (w : World) :
    (w.restartCleared s).service s = serviceSetRestartPending (w.service s) false :=
  World.service_modifyService_self ..

theorem serviceTickPending_eq (s : ServicePtr) (w : World) :
    serviceTickPending s w =
      if w.embla.host.clock.head < (w.service s).restartAllowedAt then (.waiting, w.withEmbla w.embla.ticked)
      else if (serviceStart s (w.restartCleared s)).1 ≠ 0 then (.error, (serviceStart s (w.restartCleared s)).2)
      else (.restarted, (serviceStart s (w.restartCleared s)).2) := rfl

/-- The ways through `service_tick`. -/
inductive TickOutcome (s : ServicePtr) (w : World) : ServiceTickResult → World → Prop
  | waiting (hp : (w.service s).restartPending = true) (hlt : w.embla.host.clock.head < (w.service s).restartAllowedAt) :
      TickOutcome s w .waiting (w.withEmbla w.embla.ticked)
  | due (hp : (w.service s).restartPending = true) (hge : ¬ w.embla.host.clock.head < (w.service s).restartAllowedAt) :
      TickOutcome s w (if (serviceStart s (w.restartCleared s)).1 = 0 then .restarted else .error)
        (serviceStart s (w.restartCleared s)).2
  | idle (hp : (w.service s).restartPending = false) (hr : (serviceReap s w).1 ≤ 0) :
      TickOutcome s w (if (serviceReap s w).1 < 0 then .error else .nothing) (serviceReap s w).2
  | stopHonoured (hp : (w.service s).restartPending = false) (hr : (serviceReap s w).1 = 1)
      (hs : ((serviceReap s w).2.service s).stopRequested = true) :
      TickOutcome s w .reapedNoRestart
        ((serviceReap s w).2.modifyService s fun r => serviceSetStopRequested r false)
  | noRestart (hp : (w.service s).restartPending = false) (hr : (serviceReap s w).1 = 1)
      (hs : ((serviceReap s w).2.service s).stopRequested = false)
      (hn : ((serviceReap s w).2.service s).shouldRestart = false) :
      TickOutcome s w .reapedNoRestart (serviceReap s w).2
  | restart (hp : (w.service s).restartPending = false) (hr : (serviceReap s w).1 = 1)
      (hs : ((serviceReap s w).2.service s).stopRequested = false)
      (hn : ((serviceReap s w).2.service s).shouldRestart = true) :
      TickOutcome s w (serviceScheduleRestart s (serviceReap s w).2).1 (serviceScheduleRestart s (serviceReap s w).2).2

theorem serviceReap_result (s : ServicePtr) (w : World) : (serviceReap s w).1 ≤ 0 ∨ (serviceReap s w).1 = 1 := by
  rcases serviceReap_cases s w with ⟨r, hr, hx, -⟩ | ⟨p, -, -, -, ⟨-, hx⟩ | ⟨-, hx⟩⟩ <;> rw [hx]
  · exact .inl hr
  · exact .inl (by simp)
  · exact .inr rfl

theorem serviceTick_outcome (s : ServicePtr) (w : World) :
    TickOutcome s w (serviceTick s w).1 (serviceTick s w).2 := by
  unfold serviceTick
  by_cases hp : (w.service s).restartPending = true
  · -- a pending restart waits for the clock and nothing is reaped
    rw [if_pos hp, serviceTickPending_eq]
    by_cases hlt : w.embla.host.clock.head < (w.service s).restartAllowedAt
    · rw [if_pos hlt]
      exact .waiting hp hlt
    · rw [if_neg hlt]
      have hdue := TickOutcome.due hp hlt
      by_cases hr : (serviceStart s (w.restartCleared s)).1 = 0
      · rw [if_pos hr] at hdue
        rw [if_neg (not_not.2 hr)]
        exact hdue
      · rw [if_neg hr] at hdue
        rw [if_pos hr]
        exact hdue
  · rw [if_neg hp]
    have hp' : (w.service s).restartPending = false := by simpa using hp
    simp only
    rcases serviceReap_result s w with hr | hr
    · have hidle := TickOutcome.idle hp' hr
      by_cases hneg : (serviceReap s w).1 < 0
      · rw [if_pos hneg] at hidle
        rw [if_pos hneg]
        exact hidle
      · rw [if_neg hneg] at hidle
        rw [if_neg hneg, if_pos (by omega)]
        exact hidle
    · -- the process is gone: the request to stop is looked at before the policy
      rw [if_neg (by omega), if_neg (by omega)]
      by_cases hs : ((serviceReap s w).2.service s).stopRequested = true
      · rw [if_pos hs]
        exact .stopHonoured hp' hr hs
      have hs' : ((serviceReap s w).2.service s).stopRequested = false := by simpa using hs
      rw [if_neg hs]
      by_cases hn : ((serviceReap s w).2.service s).shouldRestart = false
      · rw [if_pos hn]
        exact .noRestart hp' hr hs' hn
      · rw [if_neg hn]
        exact .restart hp' hr hs' (by simpa using hn)

/-- Its result and its world under names, for a split on the ways. -/
theorem serviceTick_ways (s : ServicePtr) (w : World) :
    ∃ r v, (serviceTick s w).1 = r ∧ (serviceTick s w).2 = v ∧ TickOutcome s w r v :=
  ⟨_, _, rfl, rfl, serviceTick_outcome s w⟩

/-- A tick reads the clock, writes flags, starts and reaps: what all these keep, a tick keeps. -/
theorem serviceTick_preserves {I : World → Prop}
    (hstart : ∀ s w, I w → I (serviceStart s w).2) (hreap : ∀ s w, I w → I (serviceReap s w).2)
    (hclock : ∀ w : World, I w → I (w.withEmbla w.embla.ticked))
    (hflags : ∀ (w : World) s (f : Service → Service), (∀ r, (f r).state = r.state ∧ (f r).process = r.process) →
      I w → I (w.modifyService s f)) (s : ServicePtr) {w : World} (h : I w) : I (serviceTick s w).2 := by
  obtain ⟨r, v, -, hv, hout⟩ := serviceTick_ways s w
  rw [hv]
  cases hout with
  | waiting => exact hclock w h
  | due =>
    apply hstart
    exact hflags _ s (fun r => serviceSetRestartPending r false) (fun _ => ⟨rfl, rfl⟩) (hclock w h)
  | idle => exact hreap s w h
  | stopHonoured => exact hflags _ s _ (fun _ => ⟨rfl, rfl⟩) (hreap s w h)
  | noRestart => exact hreap s w h
  | restart =>
    rw [serviceScheduleRestart_eq]
    exact hflags _ s _ (Service.rescheduled_kept _) (hclock _ (hreap s w h))

theorem serviceTick_other {s t : ServicePtr} (h : t ≠ s) (w : World) : (serviceTick s w).2.service t = w.service t := by
  obtain ⟨r, v, -, hv, hout⟩ := serviceTick_ways s w
  rw [hv]
  cases hout with
  | waiting => rfl
  | due =>
    rw [serviceStart_other h]
    exact World.service_modifyService_of_ne _ _ h
  | idle => exact serviceReap_other h w
  | stopHonoured =>
    rw [World.service_modifyService_of_ne _ _ h]
    exact serviceReap_other h w
  | noRestart => exact serviceReap_other h w
  | restart =>
    rw [serviceScheduleRestart_eq, World.service_modifyService_of_ne _ _ h]
    exact serviceReap_other h w

/-- A tick makes at most one call, to its own service. -/
theorem serviceTick_calls (s : ServicePtr) (w : World) :
    (serviceTick s w).2.calls = w.calls ∨ ∃ c, c.service = s ∧ (serviceTick s w).2.calls = c :: w.calls := by
  obtain ⟨r, v, -, hv, hout⟩ := serviceTick_ways s w
  rw [hv]
  cases hout with
  | waiting => exact .inl rfl
  | due => exact .inr ⟨_, rfl, serviceStart_calls ..⟩
  | idle => exact .inr ⟨_, rfl, serviceReap_calls ..⟩
  | stopHonoured => exact .inr ⟨_, rfl, serviceReap_calls ..⟩
  | noRestart => exact .inr ⟨_, rfl, serviceReap_calls ..⟩
  | restart =>
    rw [serviceScheduleRestart_eq]
    exact .inr ⟨_, rfl, serviceReap_calls ..⟩

end EmblaOs
