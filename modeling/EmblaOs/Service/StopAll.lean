/-
Stopping a whole registry. `service_registry_stop_all` gives each service one turn, in the reverse of
the start order: SIGTERM, a wait until the grace period ends, SIGKILL, a second wait, each only if
the one before left the service running. The turns are written down as a trace of events with the
worlds they happen in; all about the order of the signals is read off the trace of one turn and the
order of the turns.
-/
import EmblaOs.Service.StartAll
import EmblaOs.Lib.Trace

namespace EmblaOs

open Lib Lib.Topological Relation

/-! ## The signals -/

def HostCall.isSignal : HostCall → Bool
  | .killed .. => true
  | .killedGroup .. => true
  | _ => false

/-- The signals the host was asked to send so far, latest first. -/
def World.signals (w : World) : List HostCall := w.embla.host.trace.filter HostCall.isSignal

/-- The signal that `service_stop` or `service_kill` sends, if it comes to that. -/
def World.sentSignals (signal : Signal) (s : ServicePtr) (w : World) : List HostCall :=
  match (w.service s).process with
  | none => []
  | some p =>
    if (w.service s).state = .running ∧ (w.embla.process p).state ≠ .terminated ∧
        (w.embla.process p).hostId ≠ emblaInvalidHostPid then
      [.killed (w.embla.process p).hostId signal w.embla.host.kills.head]
    else []

theorem executorSignal_sent (p : ProcessPtr) (signal : Signal) (e : Embla) :
    ∃ kills, (executorSignal p signal e).2.host = { e.host with
      kills := kills
      trace := (if (e.process p).hostId ≠ emblaInvalidHostPid then
        [.killed (e.process p).hostId signal e.host.kills.head] else []) ++ e.host.trace } := by
  unfold executorSignal Host.kill
  by_cases hid : (e.process p).hostId = emblaInvalidHostPid
  · rw [if_pos hid, if_neg (not_not.2 hid)]
    exact ⟨e.host.kills, rfl⟩
  · rw [if_neg hid, if_pos hid]
    by_cases hok : e.host.kills.head = .ok
    · simp only [hok, ne_eq, not_true_eq_false, if_false]
      exact ⟨_, rfl⟩
    · simp only [hok, ne_eq, not_false_eq_true, if_true]
      exact ⟨_, rfl⟩

/-- `embla_terminate` and `embla_kill` signal a process that is not known to be dead. -/
theorem emblaSignal_sent (p : ProcessPtr) (signal : Signal) (e : Embla) :
    ∃ kills, (if (e.process p).state = .terminated then (-1, e) else executorSignal p signal e).2.host = { e.host with
      kills := kills
      trace := (if (e.process p).state ≠ .terminated ∧ (e.process p).hostId ≠ emblaInvalidHostPid then
        [.killed (e.process p).hostId signal e.host.kills.head] else []) ++ e.host.trace } := by
  by_cases hdead : (e.process p).state = .terminated
  · rw [if_pos hdead, if_neg fun hc => hc.1 hdead]
    exact ⟨e.host.kills, rfl⟩
  · simp only [ne_eq, hdead, not_false_eq_true, true_and]
    exact executorSignal_sent p signal e

namespace World

variable {w : World} {s : ServicePtr} {signal : Signal}

theorem sentSignals_idle (h : (w.service s).state ≠ .running ∨ (w.service s).process = none) :
    w.sentSignals signal s = [] := by
  unfold sentSignals
  rcases h with hst | hp
  · cases (w.service s).process with
    | none => rfl
    | some p => exact if_neg fun hc => hst hc.1
  · rw [hp]

theorem sentSignals_running (hst : (w.service s).state = .running) {p : ProcessPtr} (hp : (w.service s).process = some p) :
    w.sentSignals signal s =
      if (w.embla.process p).state ≠ .terminated ∧ (w.embla.process p).hostId ≠ emblaInvalidHostPid then
        [.killed (w.embla.process p).hostId signal w.embla.host.kills.head]
      else [] := by
  unfold sentSignals
  rw [hp]
  simp only [hst, true_and]

theorem serviceStop_sent (s : ServicePtr) (w : World) :
    ∃ kills, (serviceStop s w).2.embla.host = { w.embla.host with
      kills := kills, trace := sentSignals .sigterm s w ++ w.embla.host.trace } := by
  rcases serviceStop_cases s w with ⟨hno, hx⟩ | ⟨hst, p, hp, hx⟩ <;> rw [hx]
  · rw [sentSignals_idle hno]
    exact ⟨w.embla.host.kills, rfl⟩
  · rw [sentSignals_running hst hp]
    exact emblaSignal_sent p .sigterm w.embla

theorem serviceKill_sent (s : ServicePtr) (w : World) :
    ∃ kills, (serviceKill s w).2.embla.host = { w.embla.host with
      kills := kills, trace := sentSignals .sigkill s w ++ w.embla.host.trace } := by
  rcases serviceKill_cases s w with ⟨hno, hx⟩ | ⟨hst, p, hp, hx⟩ <;> rw [hx]
  · rw [sentSignals_idle hno]
    exact ⟨w.embla.host.kills, rfl⟩
  · rw [sentSignals_running hst hp]
    exact emblaSignal_sent p .sigkill w.embla

end World

theorem emblaReapProcess_host (id : Nat) (e : Embla) : (emblaReapProcess id e).2.host = e.host := by
  unfold emblaReapProcess emblaReapFoundProcess
  simp only
  split
  · rfl
  split
  · rfl
  split
  · rfl
  split
  · rfl
  split
  · rfl
  split
  · split <;> rfl
  · rfl

theorem serviceReap_host (s : ServicePtr) (w : World) : (serviceReap s w).2.embla.host = w.embla.host := by
  rcases serviceReap_cases s w with ⟨r, -, hx, -⟩ | ⟨p, -, -, -, ⟨-, hx⟩ | ⟨-, hx⟩⟩ <;> rw [hx]
  · rfl
  · exact emblaReapProcess_host ..
  · exact emblaReapProcess_host ..

theorem World.drainOneEvent_host (w : World) : w.drainOneEvent.2.embla.host = w.embla.host.wait4.2 := by
  have hx : w.drainOneEvent.2.embla = (serviceRegistryDrainOneEvent w.embla).2 := rfl
  rw [hx]
  rcases serviceRegistryDrainOneEvent_cases w.embla with ⟨-, he⟩ | ⟨event, p, -, -, he⟩ <;> rw [he] <;> rfl

theorem World.drainOneEvent_signals (w : World) : w.drainOneEvent.2.signals = w.signals := by
  unfold World.signals
  rw [w.drainOneEvent_host]
  unfold Host.wait4
  cases w.embla.host.wait4s.head <;> rfl

/-! ## The waits -/

/-- How a wait for `s` until `deadline` with this outcome can have ended, in the world `w`: the
service was reaped, the clock has reached the deadline, or a reap or a poll went wrong. -/
inductive WaitOver (s : ServicePtr) (deadline : ℚ) (w : World) : Int → Prop
  | reaped (hst : (w.service s).state = .stopped) : WaitOver s deadline w 1
  | late (before : World) (hlate : deadline ≤ before.monotonicNow.1) (hw : w = before.monotonicNow.2) :
      WaitOver s deadline w 0
  | reapFailed (before : World) (hneg : (serviceReap s before).1 < 0) (hw : w = (serviceReap s before).2) :
      WaitOver s deadline w (-1)
  | pollFailed (before : World) (hneg : before.drainOneEvent.1 < 0) (hw : w = before.drainOneEvent.2) :
      WaitOver s deadline w (-1)

theorem WaitOver.outcome {s : ServicePtr} {deadline : ℚ} {w : World} {outcome : Int} (h : WaitOver s deadline w outcome) :
    outcome = 1 ∨ outcome = 0 ∨ outcome = -1 := by
  cases h with
  | reaped => exact .inl rfl
  | late => exact .inr (.inl rfl)
  | reapFailed => exact .inr (.inr rfl)
  | pollFailed => exact .inr (.inr rfl)

/-- A wait for `s` that ended in `w'`; since `w` nothing was done but to send `sent` and to wait. -/
structure Waited (s : ServicePtr) (deadline : ℚ) (sent : List HostCall) (w : World) (outcome : Int) (w' : World) :
    Prop where
  ended : WaitOver s deadline w' outcome
  others : ∀ t, t ≠ s → w'.service t = w.service t
  kept : outcome ≠ 1 → (w'.service s).state = (w.service s).state
  signals : w'.signals = sent ++ w.signals
  clock : ∃ n, w'.embla.host.clock = w.embla.host.clock.drop n

theorem serviceReap_signals (s : ServicePtr) (w : World) : (serviceReap s w).2.signals = w.signals := by
  unfold World.signals
  rw [serviceReap_host]

/-- A reap that does not succeed leaves the state alone. -/
theorem serviceReap_kept {s : ServicePtr} {w : World} (h : (serviceReap s w).1 ≠ 1) :
    ((serviceReap s w).2.service s).state = (w.service s).state := by
  rcases serviceReap_self s w with ⟨-, hx | ⟨process, hx⟩⟩ | ⟨-, hone, -⟩
  · rw [hx]
  · rw [hx]
    rfl
  · exact absurd hone h

theorem waitForTermination_waited (s : ServicePtr) (deadline : ℚ) :
    ∀ (fuel : Nat) (w : World) (outcome : Int) (w' : World),
      serviceOrchestratorWaitForTermination s deadline fuel w = some (outcome, w') → Waited s deadline [] w outcome w'
  | 0, _, _, _, hx => by cases hx
  | fuel + 1, w, outcome, w', hx => by
    -- the clock is read once a round
    have hclock : (serviceReap s w.monotonicNow.2).2.embla.host.clock = w.embla.host.clock.drop 1 := by
      rw [serviceReap_host]
      rfl
    have hother : ∀ t, t ≠ s → (serviceReap s w.monotonicNow.2).2.service t = w.service t :=
      fun t ht => serviceReap_other ht w.monotonicNow.2
    have hsignals : (serviceReap s w.monotonicNow.2).2.signals = w.signals := serviceReap_signals s w.monotonicNow.2
    have hdrained : (serviceReap s w.monotonicNow.2).2.drainOneEvent.2.embla.host.clock = w.embla.host.clock.drop 1 := by
      rw [World.drainOneEvent_host, (Host.wait4_rest _).2.1, hclock]
    obtain ⟨answer, w₁, hround, hw⟩ := waitForTermination_round s deadline w
    rw [hw] at hx
    cases hround with
    | late hlate =>
      cases hx
      exact ⟨.late w hlate rfl, fun _ _ => rfl, fun _ => rfl, rfl, 1, rfl⟩
    | reaped hearly hone =>
      cases hx
      refine ⟨.reaped ?_, hother, fun hc => absurd rfl hc, hsignals, 1, hclock⟩
      rcases serviceReap_self s w.monotonicNow.2 with ⟨hle, -⟩ | ⟨-, -, p, -, -, hself⟩
      · omega
      · rw [hself]
        rfl
    | reapFailed hearly hneg =>
      cases hx
      exact ⟨.reapFailed _ hneg rfl, hother, fun _ => serviceReap_kept (by omega), hsignals, 1, hclock⟩
    | pollFailed hearly halive herr =>
      cases hx
      refine ⟨.pollFailed _ herr rfl, hother, fun _ => serviceReap_kept (not_or.1 halive).1, ?_, 1, hdrained⟩
      rw [World.drainOneEvent_signals]
      exact hsignals
    | again hearly halive =>
      obtain ⟨hended, hothers, hkept, hsent, n, hn⟩ := waitForTermination_waited s deadline fuel _ outcome w' hx
      refine ⟨hended, fun t ht => (hothers t ht).trans (hother t ht),
        fun ho => (hkept ho).trans (serviceReap_kept (not_or.1 halive).1), ?_, n + 1, ?_⟩
      · rw [hsent, List.nil_append, World.drainOneEvent_signals]
        exact hsignals
      · rw [hn, hdrained, Stream'.drop_drop]
        congr 1
        omega

/-! ## One turn -/

/-- What is done to a service in its turn: `service_stop` and the wait after it, `service_kill` and
the wait after that, each with what it returned. -/
inductive StopAction
  | sigterm (result : Int)
  | waited (deadline : ℚ) (terminated : Int)
  | sigkill (result : Int)
  | waitedKill (deadline : ℚ) (terminated : Int)
  deriving DecidableEq

def StopAction.isSigterm : StopAction → Bool
  | .sigterm _ => true
  | _ => false

def StopAction.isSigkill : StopAction → Bool
  | .sigkill _ => true
  | _ => false

/-- The world is the one a signal is sent in and the one a wait ends in. -/
structure StopEvent where
  service : ServicePtr
  action : StopAction
  world : World

/-- The signals the host is asked to send in an event. -/
def StopEvent.sent (event : StopEvent) : List HostCall :=
  match event.action with
  | .sigterm _ => event.world.sentSignals .sigterm event.service
  | .sigkill _ => event.world.sentSignals .sigkill event.service
  | _ => []

/-- `deadline` of `service_registry_stop_all` for a service it calls `service_stop` on in `w`. -/
def stopDeadline (service : ServicePtr) (timeoutSeconds : ℚ) (w : World) : ℚ :=
  (serviceStop service w).2.monotonicNow.1 + timeoutSeconds

/-- `kill_deadline` for a service it calls `service_kill` on in `w`. -/
def killDeadline (service : ServicePtr) (w : World) : ℚ :=
  (serviceKill service w).2.monotonicNow.1 + serviceOrchestratorKillWaitSeconds

def stopWait (service : ServicePtr) (timeoutSeconds : ℚ) (fuel : Nat) (w : World) : Option (Int × World) :=
  serviceOrchestratorWaitForTermination service (stopDeadline service timeoutSeconds w) fuel
    (serviceStop service w).2.monotonicNow.2

def killWait (service : ServicePtr) (fuel : Nat) (w : World) : Option (Int × World) :=
  serviceOrchestratorWaitForTermination service (killDeadline service w) fuel (serviceKill service w).2.monotonicNow.2

/-- The events of `stopAllEscalate`. -/
def escalateTrace (service : ServicePtr) (fuel : Nat) (w : World) : List StopEvent :=
  ⟨service, .sigkill (serviceKill service w).1, w⟩ ::
    if (serviceKill service w).1 = 0 then
      match killWait service fuel w with
      | none => []
      | some (terminated, w') => [⟨service, .waitedKill (killDeadline service w) terminated, w'⟩]
    else []

/-- The events of `stopAllOne`, up to a wait that takes more than `fuel` rounds. -/
def stopOneTrace (service : ServicePtr) (timeoutSeconds : ℚ) (fuel : Nat) (w : World) : List StopEvent :=
  if (w.service service).state ≠ .running then []
  else
    ⟨service, .sigterm (serviceStop service w).1, w⟩ ::
      if (serviceStop service w).1 ≠ 0 then []
      else
        match stopWait service timeoutSeconds fuel w with
        | none => []
        | some (terminated, w') => ⟨service, .waited (stopDeadline service timeoutSeconds w) terminated, w'⟩ ::
            if terminated ≠ 1 then escalateTrace service fuel w' else []

/-- All that a turn can be: its events and what it returns. -/
inductive StopTurn (s : ServicePtr) (timeoutSeconds : ℚ) (fuel : Nat) (w : World) :
    List StopEvent → Option (Int × World) → Prop
  | idle (hst : (w.service s).state ≠ .running) : StopTurn s timeoutSeconds fuel w [] (some (0, w))
  | refused (hst : (w.service s).state = .running) (result : Int) (hr : (serviceStop s w).1 = result) (hne : result ≠ 0) :
      StopTurn s timeoutSeconds fuel w [⟨s, .sigterm result, w⟩] (some (0, (serviceStop s w).2))
  | waiting (hst : (w.service s).state = .running) (hr : (serviceStop s w).1 = 0)
      (hwait : stopWait s timeoutSeconds fuel w = none) : StopTurn s timeoutSeconds fuel w [⟨s, .sigterm 0, w⟩] none
  | ended (hst : (w.service s).state = .running) (hr : (serviceStop s w).1 = 0) (w₁ : World)
      (hwait : stopWait s timeoutSeconds fuel w = some (1, w₁)) : StopTurn s timeoutSeconds fuel w
        [⟨s, .sigterm 0, w⟩, ⟨s, .waited (stopDeadline s timeoutSeconds w) 1, w₁⟩] (some (1, w₁))
  | spared (hst : (w.service s).state = .running) (hr : (serviceStop s w).1 = 0) (terminated : Int) (w₁ : World)
      (hwait : stopWait s timeoutSeconds fuel w = some (terminated, w₁)) (hlate : terminated ≠ 1)
      (result : Int) (hk : (serviceKill s w₁).1 = result) (hne : result ≠ 0) : StopTurn s timeoutSeconds fuel w
        [⟨s, .sigterm 0, w⟩, ⟨s, .waited (stopDeadline s timeoutSeconds w) terminated, w₁⟩, ⟨s, .sigkill result, w₁⟩]
        (some (terminated, (serviceKill s w₁).2))
  | killing (hst : (w.service s).state = .running) (hr : (serviceStop s w).1 = 0) (terminated : Int) (w₁ : World)
      (hwait : stopWait s timeoutSeconds fuel w = some (terminated, w₁)) (hlate : terminated ≠ 1)
      (hk : (serviceKill s w₁).1 = 0) (hkill : killWait s fuel w₁ = none) : StopTurn s timeoutSeconds fuel w
        [⟨s, .sigterm 0, w⟩, ⟨s, .waited (stopDeadline s timeoutSeconds w) terminated, w₁⟩, ⟨s, .sigkill 0, w₁⟩] none
  | killed (hst : (w.service s).state = .running) (hr : (serviceStop s w).1 = 0) (terminated : Int) (w₁ : World)
      (hwait : stopWait s timeoutSeconds fuel w = some (terminated, w₁)) (hlate : terminated ≠ 1)
      (hk : (serviceKill s w₁).1 = 0) (terminated' : Int) (w₂ : World)
      (hkill : killWait s fuel w₁ = some (terminated', w₂)) : StopTurn s timeoutSeconds fuel w
        [⟨s, .sigterm 0, w⟩, ⟨s, .waited (stopDeadline s timeoutSeconds w) terminated, w₁⟩, ⟨s, .sigkill 0, w₁⟩,
          ⟨s, .waitedKill (killDeadline s w₁) terminated', w₂⟩] (some (terminated', w₂))

theorem stopAllOne_eq (s : ServicePtr) (timeoutSeconds : ℚ) (fuel : Nat) (w : World) :
    stopAllOne s timeoutSeconds fuel w =
      if (w.service s).state ≠ .running then some (0, w)
      else if (serviceStop s w).1 ≠ 0 then some (0, (serviceStop s w).2)
      else
        match stopWait s timeoutSeconds fuel w with
        | none => none
        | some (terminated, w') => if terminated ≠ 1 then stopAllEscalate s fuel terminated w' else some (1, w') := rfl

theorem stopAllEscalate_eq (s : ServicePtr) (fuel : Nat) (terminated : Int) (w : World) :
    stopAllEscalate s fuel terminated w =
      if (serviceKill s w).1 = 0 then killWait s fuel w else some (terminated, (serviceKill s w).2) := rfl

theorem stopAllOne_turn (s : ServicePtr) (timeoutSeconds : ℚ) (fuel : Nat) (w : World) :
    StopTurn s timeoutSeconds fuel w (stopOneTrace s timeoutSeconds fuel w) (stopAllOne s timeoutSeconds fuel w) := by
  rw [stopAllOne_eq]
  unfold stopOneTrace
  by_cases hst : (w.service s).state = .running
  swap
  · rw [if_pos hst, if_pos hst]
    exact .idle hst
  rw [if_neg (not_not.2 hst), if_neg (not_not.2 hst)]
  by_cases hr : (serviceStop s w).1 = 0
  swap
  · rw [if_pos hr, if_pos hr]
    exact .refused hst _ rfl hr
  rw [if_neg (not_not.2 hr), if_neg (not_not.2 hr), hr]
  rcases hwait : stopWait s timeoutSeconds fuel w with _ | ⟨terminated, w₁⟩
  · exact .waiting hst hr hwait
  simp only
  by_cases hdone : terminated = 1
  · subst hdone
    rw [if_neg (not_not.2 rfl), if_neg (not_not.2 rfl)]
    exact .ended hst hr w₁ hwait
  rw [if_pos hdone, if_pos hdone, stopAllEscalate_eq]
  unfold escalateTrace
  by_cases hk : (serviceKill s w₁).1 = 0
  swap
  · rw [if_neg hk, if_neg hk]
    exact .spared hst hr terminated w₁ hwait hdone _ rfl hk
  rw [if_pos hk, if_pos hk, hk]
  rcases hkill : killWait s fuel w₁ with _ | ⟨terminated', w₂⟩
  · exact .killing hst hr terminated w₁ hwait hdone hk hkill
  · exact .killed hst hr terminated w₁ hwait hdone hk terminated' w₂ hkill

namespace World

theorem sentSignals_cases (signal : Signal) (s : ServicePtr) (w : World) :
    w.sentSignals signal s = [] ∨ ∃ pid answer, w.sentSignals signal s = [.killed pid signal answer] := by
  unfold sentSignals
  split
  · exact .inl rfl
  split
  · exact .inr ⟨_, _, rfl⟩
  · exact .inl rfl

theorem sentSignals_reverse (signal : Signal) (s : ServicePtr) (w : World) :
    (w.sentSignals signal s).reverse = w.sentSignals signal s := by
  rcases sentSignals_cases signal s w with hx | ⟨pid, answer, hx⟩ <;> rw [hx] <;> rfl

/-- What `service_stop` and `service_kill` add to the host's trace are signals. -/
theorem signals_of_sent {w w' : World} {signal : Signal} {s : ServicePtr} {kills : Stream' KillAnswer}
    (h : w'.embla.host = { w.embla.host with kills := kills, trace := w.sentSignals signal s ++ w.embla.host.trace }) :
    w'.signals = w.sentSignals signal s ++ w.signals := by
  unfold signals
  rw [h, List.filter_append]
  rcases sentSignals_cases signal s w with hx | ⟨pid, answer, hx⟩ <;> rw [hx] <;> rfl

theorem serviceStop_signals (s : ServicePtr) (w : World) :
    (serviceStop s w).2.signals = w.sentSignals .sigterm s ++ w.signals := by
  obtain ⟨kills, hx⟩ := serviceStop_sent s w
  exact signals_of_sent hx

theorem serviceKill_signals (s : ServicePtr) (w : World) :
    (serviceKill s w).2.signals = w.sentSignals .sigkill s ++ w.signals := by
  obtain ⟨kills, hx⟩ := serviceKill_sent s w
  exact signals_of_sent hx

end World

section Turn

variable {s : ServicePtr} {timeoutSeconds deadline : ℚ} {fuel : Nat} {w w' : World} {outcome : Int}

theorem serviceStop_state (s : ServicePtr) (w : World) :
    ((serviceStop s w).2.service s).state = (w.service s).state := by
  rcases serviceStop_self s w with ⟨-, hx⟩ | ⟨-, hx⟩ <;> rw [hx]
  rfl

theorem stopWait_waited (h : stopWait s timeoutSeconds fuel w = some (outcome, w')) :
    Waited s (stopDeadline s timeoutSeconds w) (w.sentSignals .sigterm s) w outcome w' := by
  obtain ⟨hended, hothers, hkept, hsignals, n, hn⟩ := waitForTermination_waited _ _ _ _ _ _ h
  obtain ⟨kills, hhost⟩ := World.serviceStop_sent s w
  refine ⟨hended, fun t ht => (hothers t ht).trans (serviceStop_other ht w),
    fun ho => (hkept ho).trans (serviceStop_state s w), hsignals.trans (World.serviceStop_signals s w), n + 1, ?_⟩
  have hclock : (serviceStop s w).2.monotonicNow.2.embla.host.clock = w.embla.host.clock.drop 1 := by
    change (serviceStop s w).2.embla.host.clock.tail = _
    rw [hhost]
    rfl
  rw [hn, hclock, Stream'.drop_drop, Nat.add_comm]

theorem killWait_waited (h : killWait s fuel w = some (outcome, w')) :
    Waited s (killDeadline s w) (w.sentSignals .sigkill s) w outcome w' := by
  obtain ⟨hended, hothers, hkept, hsignals, n, hn⟩ := waitForTermination_waited _ _ _ _ _ _ h
  obtain ⟨kills, hhost⟩ := World.serviceKill_sent s w
  refine ⟨hended, fun t ht => (hothers t ht).trans (serviceKill_service s t w),
    fun ho => (hkept ho).trans (congrArg Service.state (serviceKill_service s s w)),
    hsignals.trans (World.serviceKill_signals s w), n + 1, ?_⟩
  have hclock : (serviceKill s w).2.monotonicNow.2.embla.host.clock = w.embla.host.clock.drop 1 := by
    change (serviceKill s w).2.embla.host.clock.tail = _
    rw [hhost]
    rfl
  rw [hn, hclock, Stream'.drop_drop, Nat.add_comm]

end Turn

/-- By `events` and in `w` the call has finished with `t`: it is not running, its SIGTERM was
refused, or the wait after that ended in one of the ways of `ends` and then its SIGKILL was refused
or the wait after that ended too. -/
def Finished (ends : Int → Prop) (events : List StopEvent) (t : ServicePtr) (w : World) : Prop :=
  (w.service t).state ≠ .running ∨
  (∃ result v, result ≠ 0 ∧ ⟨t, .sigterm result, v⟩ ∈ events) ∨
  ∃ before deadline terminated v after, events = before ++ ⟨t, .waited deadline terminated, v⟩ :: after ∧
    ends terminated ∧
    ((∃ result v', result ≠ 0 ∧ ⟨t, .sigkill result, v'⟩ ∈ after) ∨
      ∃ deadline' terminated' v', ⟨t, .waitedKill deadline' terminated', v'⟩ ∈ after)

theorem Finished.later {ends : Int → Prop} {events : List StopEvent} {t : ServicePtr} {w w' : World}
    (h : Finished ends events t w) (hsame : w'.service t = w.service t) (after : List StopEvent) :
    Finished ends (events ++ after) t w' := by
  rcases h with hst | ⟨result, v, hne, hin⟩ | ⟨before, deadline, terminated, v, rest, heq, hends, hkill⟩
  · left
    rw [hsame]
    exact hst
  · exact .inr (.inl ⟨result, v, hne, List.mem_append_left _ hin⟩)
  · refine .inr (.inr ⟨before, deadline, terminated, v, rest ++ after, by rw [heq]; simp, hends, ?_⟩)
    rcases hkill with ⟨result, v', hne, hin⟩ | ⟨deadline', terminated', v', hin⟩
    · exact .inl ⟨result, v', hne, List.mem_append_left _ hin⟩
    · exact .inr ⟨deadline', terminated', v', List.mem_append_left _ hin⟩

theorem Finished.earlier {ends : Int → Prop} {events : List StopEvent} {t : ServicePtr} {w : World}
    (h : Finished ends events t w) (prior : List StopEvent) : Finished ends (prior ++ events) t w := by
  rcases h with hst | ⟨result, v, hne, hin⟩ | ⟨before, deadline, terminated, v, rest, heq, hends, hkill⟩
  · exact .inl hst
  · exact .inr (.inl ⟨result, v, hne, List.mem_append_right _ hin⟩)
  · exact .inr (.inr ⟨prior ++ before, deadline, terminated, v, rest, by rw [heq]; simp, hends, hkill⟩)

/-- The ways a wait can end that leave the service running: at the deadline or with an error. -/
def WaitFailed (terminated : Int) : Prop := terminated = 0 ∨ terminated = -1

/-- What a turn that is over has done. -/
structure TurnDone (s : ServicePtr) (events : List StopEvent) (w : World) (terminated : Int) (w' : World) : Prop where
  others : ∀ t, t ≠ s → w'.service t = w.service t
  counted : (terminated = 1 ∧ (w.service s).state = .running ∧ (w'.service s).state = .stopped) ∨
    (terminated ≠ 1 ∧ (w'.service s).state = (w.service s).state)
  signals : w'.signals = (events.flatMap StopEvent.sent).reverse ++ w.signals
  clock : ∃ n, w'.embla.host.clock = w.embla.host.clock.drop n
  finished : Finished WaitFailed events s w'

theorem WaitOver.failed {s : ServicePtr} {deadline : ℚ} {w : World} {outcome : Int} (h : WaitOver s deadline w outcome)
    (hne : outcome ≠ 1) : WaitFailed outcome := h.outcome.resolve_left hne

theorem WaitOver.stopped {s : ServicePtr} {deadline : ℚ} {w : World} (h : WaitOver s deadline w 1) :
    (w.service s).state = .stopped := by
  cases h with
  | reaped hst => exact hst

theorem StopTurn.done {s : ServicePtr} {timeoutSeconds : ℚ} {fuel : Nat} {w w' : World} {events : List StopEvent}
    {outcome : Int} (h : StopTurn s timeoutSeconds fuel w events (some (outcome, w'))) :
    TurnDone s events w outcome w' := by
  cases h with
  | idle hst => exact ⟨fun _ _ => rfl, .inr ⟨by decide, rfl⟩, rfl, ⟨0, rfl⟩, .inl hst⟩
  | refused hst result hr hne =>
    obtain ⟨kills, hhost⟩ := World.serviceStop_sent s w
    refine ⟨fun t ht => serviceStop_other ht w, .inr ⟨by decide, serviceStop_state s w⟩, ?_, ⟨0, by rw [hhost]; rfl⟩,
      .inr (.inl ⟨result, w, hne, List.mem_singleton_self _⟩)⟩
    rw [World.serviceStop_signals]
    simp [StopEvent.sent, World.sentSignals_reverse]
  | ended hst hr w₁ hwait =>
    have hw := stopWait_waited hwait
    refine ⟨hw.others, .inl ⟨rfl, hst, hw.ended.stopped⟩, ?_, hw.clock, .inl ?_⟩
    · rw [hw.signals]
      simp [StopEvent.sent, World.sentSignals_reverse]
    · rw [hw.ended.stopped]
      exact fun hc => by cases hc
  | spared hst hr terminated w₁ hwait hlate result hk hne =>
    have hw := stopWait_waited hwait
    obtain ⟨kills, hhost⟩ := World.serviceKill_sent s w₁
    refine ⟨fun t ht => (serviceKill_service s t w₁).trans (hw.others t ht), .inr ⟨hlate, ?_⟩, ?_, ?_,
      .inr (.inr ⟨[⟨s, .sigterm 0, w⟩], _, _, w₁, [⟨s, .sigkill result, w₁⟩], rfl, hw.ended.failed hlate,
        .inl ⟨result, w₁, hne, List.mem_singleton_self _⟩⟩)⟩
    · rw [serviceKill_service]
      exact hw.kept hlate
    · rw [World.serviceKill_signals, hw.signals]
      simp [StopEvent.sent, World.sentSignals_reverse]
    · rw [hhost]
      exact hw.clock
  | killed hst hr terminated w₁ hwait hlate hk terminated' w₂ hkill =>
    have hw := stopWait_waited hwait
    have hw' := killWait_waited hkill
    -- two waits, and the clock goes on through both
    have hst₁ : (w₁.service s).state = (w.service s).state := hw.kept hlate
    refine ⟨fun t ht => (hw'.others t ht).trans (hw.others t ht), ?_, ?_, ?_,
      .inr (.inr ⟨[⟨s, .sigterm 0, w⟩], _, _, w₁, [⟨s, .sigkill 0, w₁⟩, ⟨s, .waitedKill _ _, w'⟩], rfl,
        hw.ended.failed hlate, .inr ⟨_, _, w', List.mem_cons_of_mem _ (List.mem_singleton_self _)⟩⟩)⟩
    · by_cases hone : outcome = 1
      · subst hone
        exact .inl ⟨rfl, hst, hw'.ended.stopped⟩
      · exact .inr ⟨hone, (hw'.kept hone).trans hst₁⟩
    · rw [hw'.signals, hw.signals]
      simp [StopEvent.sent, World.sentSignals_reverse]
    · obtain ⟨n, hn⟩ := hw.clock
      obtain ⟨n', hn'⟩ := hw'.clock
      exact ⟨n + n', by rw [hn', hn, Stream'.drop_drop]⟩

/-- A wait recorded in the trace ended as it says. -/
def StopEvent.WaitsOver (event : StopEvent) : Prop :=
  match event.action with
  | .waited deadline terminated => WaitOver event.service deadline event.world terminated
  | .waitedKill deadline terminated => WaitOver event.service deadline event.world terminated
  | _ => True

/-- Right before `event` its service was sent SIGTERM and the wait for that failed. -/
def StopEvent.Escalated (timeoutSeconds : ℚ) (events : List StopEvent) (event : StopEvent) : Prop :=
  ∃ before w terminated, WaitFailed terminated ∧ events = before ++ [⟨event.service, .sigterm 0, w⟩,
    ⟨event.service, .waited (stopDeadline event.service timeoutSeconds w) terminated, event.world⟩]

/-- The events of a turn: SIGTERM comes first, SIGKILL after the wait. -/
structure TurnEvents (s : ServicePtr) (timeoutSeconds : ℚ) (w : World) (events : List StopEvent) : Prop where
  own : ∀ e ∈ events, e.service = s ∧ e.WaitsOver ∧ ∀ t, t ≠ s → e.world.service t = w.service t
  sigterm : (∀ e ∈ events, ¬ e.action.isSigterm = true) ∨ ∃ result rest, (w.service s).state = .running ∧
    events = ⟨s, .sigterm result, w⟩ :: rest ∧ ∀ e ∈ rest, ¬ e.action.isSigterm = true
  sigkill : (∀ e ∈ events, ¬ e.action.isSigkill = true) ∨ ∃ terminated w₁ result rest, WaitFailed terminated ∧
    events = [⟨s, .sigterm 0, w⟩, ⟨s, .waited (stopDeadline s timeoutSeconds w) terminated, w₁⟩] ++
      ⟨s, .sigkill result, w₁⟩ :: rest ∧ ∀ e ∈ rest, ¬ e.action.isSigkill = true

theorem StopTurn.events {s : ServicePtr} {timeoutSeconds : ℚ} {fuel : Nat} {w : World} {events : List StopEvent}
    {result : Option (Int × World)} (h : StopTurn s timeoutSeconds fuel w events result) :
    TurnEvents s timeoutSeconds w events := by
  cases h with
  | idle hst => exact ⟨by simp, .inl (by simp), .inl (by simp)⟩
  | refused hst result hr hne =>
    exact ⟨by simp [StopEvent.WaitsOver], .inr ⟨result, [], hst, rfl, by simp⟩, .inl (by simp [StopAction.isSigkill])⟩
  | waiting hst hr hwait =>
    exact ⟨by simp [StopEvent.WaitsOver], .inr ⟨0, [], hst, rfl, by simp⟩, .inl (by simp [StopAction.isSigkill])⟩
  | ended hst hr w₁ hwait =>
    have hw := stopWait_waited hwait
    refine ⟨?_, .inr ⟨0, _, hst, rfl, by simp [StopAction.isSigterm]⟩, .inl (by simp [StopAction.isSigkill])⟩
    rw [List.forall_mem_cons, List.forall_mem_singleton]
    exact ⟨⟨rfl, trivial, fun _ _ => rfl⟩, rfl, hw.ended, hw.others⟩
  | spared hst hr terminated w₁ hwait hlate result hk hne =>
    have hw := stopWait_waited hwait
    refine ⟨?_, .inr ⟨0, _, hst, rfl, by simp [StopAction.isSigterm]⟩,
      .inr ⟨terminated, w₁, result, [], hw.ended.failed hlate, rfl, by simp⟩⟩
    rw [List.forall_mem_cons, List.forall_mem_cons, List.forall_mem_singleton]
    exact ⟨⟨rfl, trivial, fun _ _ => rfl⟩, ⟨rfl, hw.ended, hw.others⟩, rfl, trivial, hw.others⟩
  | killing hst hr terminated w₁ hwait hlate hk hkill =>
    have hw := stopWait_waited hwait
    refine ⟨?_, .inr ⟨0, _, hst, rfl, by simp [StopAction.isSigterm]⟩,
      .inr ⟨terminated, w₁, 0, [], hw.ended.failed hlate, rfl, by simp⟩⟩
    rw [List.forall_mem_cons, List.forall_mem_cons, List.forall_mem_singleton]
    exact ⟨⟨rfl, trivial, fun _ _ => rfl⟩, ⟨rfl, hw.ended, hw.others⟩, rfl, trivial, hw.others⟩
  | killed hst hr terminated w₁ hwait hlate hk terminated' w₂ hkill =>
    have hw := stopWait_waited hwait
    have hw' := killWait_waited hkill
    refine ⟨?_, .inr ⟨0, _, hst, rfl, by simp [StopAction.isSigterm]⟩,
      .inr ⟨terminated, w₁, 0, _, hw.ended.failed hlate, rfl, by simp [StopAction.isSigkill]⟩⟩
    rw [List.forall_mem_cons, List.forall_mem_cons, List.forall_mem_cons, List.forall_mem_singleton]
    exact ⟨⟨rfl, trivial, fun _ _ => rfl⟩, ⟨rfl, hw.ended, hw.others⟩, ⟨rfl, trivial, hw.others⟩, rfl, hw'.ended,
      fun t ht => (hw'.others t ht).trans (hw.others t ht)⟩

/-- A running service is sent for in its turn. -/
theorem StopTurn.attempt {s : ServicePtr} {timeoutSeconds : ℚ} {fuel : Nat} {w : World} {events : List StopEvent}
    {result : Option (Int × World)} (h : StopTurn s timeoutSeconds fuel w events result)
    (hst : (w.service s).state = .running) : ∃ e ∈ events, e.service = s ∧ e.action.isSigterm = true := by
  cases h with
  | idle hno => exact absurd hst hno
  | refused => exact ⟨_, List.mem_cons_self, rfl, rfl⟩
  | waiting => exact ⟨_, List.mem_cons_self, rfl, rfl⟩
  | ended => exact ⟨_, List.mem_cons_self, rfl, rfl⟩
  | spared => exact ⟨_, List.mem_cons_self, rfl, rfl⟩
  | killing => exact ⟨_, List.mem_cons_self, rfl, rfl⟩
  | killed => exact ⟨_, List.mem_cons_self, rfl, rfl⟩

section Events

variable {s : ServicePtr} {timeoutSeconds : ℚ} {w : World} {events pre post : List StopEvent} {e : StopEvent}

theorem TurnEvents.sigterm_first (h : TurnEvents s timeoutSeconds w events) (heq : events = pre ++ e :: post)
    (he : e.action.isSigterm = true) : pre = [] ∧ e.world = w ∧ (w.service s).state = .running := by
  have hin : e ∈ events := by
    rw [heq]
    exact List.mem_append_right _ List.mem_cons_self
  rcases h.sigterm with hno | ⟨result, rest, hst, hx, hrest⟩
  · exact absurd he (hno e hin)
  · obtain ⟨hpre, rfl⟩ := split_unique (l := []) (P := fun e => e.action.isSigterm = true) (by simp) hrest
      (hx.symm.trans heq) he
    exact ⟨hpre, rfl, hst⟩

theorem TurnEvents.sigkill_escalates (h : TurnEvents s timeoutSeconds w events) (heq : events = pre ++ e :: post)
    (he : e.action.isSigkill = true) : e.Escalated timeoutSeconds pre := by
  have hin : e ∈ events := by
    rw [heq]
    exact List.mem_append_right _ List.mem_cons_self
  rcases h.sigkill with hno | ⟨terminated, w₁, result, rest, hfailed, hx, hrest⟩
  · exact absurd he (hno e hin)
  · obtain ⟨hpre, rfl⟩ := split_unique (P := fun e => e.action.isSigkill = true) (by simp [StopAction.isSigkill]) hrest
      (hx.symm.trans heq) he
    exact ⟨[], w, terminated, hfailed, hpre⟩

theorem TurnEvents.sigterm_once (h : TurnEvents s timeoutSeconds w events) :
    (events.countP fun e => e.action.isSigterm) ≤ 1 := by
  rcases h.sigterm with hno | ⟨result, rest, -, rfl, hrest⟩
  · rw [List.countP_eq_zero.2 hno]
    exact Nat.zero_le 1
  · rw [List.countP_cons, List.countP_eq_zero.2 hrest, Nat.zero_add]
    exact le_of_eq (if_pos rfl)

end Events

/-! ## One turn after the other -/

/-- The events of `stopAllLoop`. -/
def stopLoopTrace (timeoutSeconds : ℚ) (fuel : Nat) : List ServicePtr → World → List StopEvent
  | [], _ => []
  | service :: rest, w =>
    stopOneTrace service timeoutSeconds fuel w ++
      match stopAllOne service timeoutSeconds fuel w with
      | none => []
      | some (_, w) => stopLoopTrace timeoutSeconds fuel rest w

/-- The events of `serviceRegistryStopAll`, first to last, up to a wait that takes more than `fuel`
rounds. -/
def stopAllTrace (registry : ServiceRegistry) (timeoutSeconds : ℚ) (fuel : Nat) (w : World) : List StopEvent :=
  if serviceRegistryCount registry = 0 then []
  else
    match w.startOrder registry with
    | some (some order, w) => stopLoopTrace timeoutSeconds fuel order.reverse w
    | _ => []

/-- What holds of an event of the loop over `visits` from `w`, `events` being the ones before it. -/
structure StopEvent.Proper (timeoutSeconds : ℚ) (visits : List ServicePtr) (w : World) (events : List StopEvent)
    (event : StopEvent) : Prop where
  visited : event.service ∈ visits
  others : ∀ t, t ∉ visits → event.world.service t = w.service t
  running : event.action.isSigterm = true → (event.world.service event.service).state = .running
  turn : event.action.isSigterm = true → ∀ before after, visits = before ++ event.service :: after →
    ∀ t ∈ before, Finished WaitFailed events t event.world
  escalated : event.action.isSigkill = true → event.Escalated timeoutSeconds events
  waits : event.WaitsOver

section Loop

variable (timeoutSeconds : ℚ) (fuel : Nat)

/-- An event of the loop belongs to the first turn or to the loop after it. -/
theorem stopLoopTrace_split {s : ServicePtr} {rest : List ServicePtr} {w : World} {pre post : List StopEvent} {e : StopEvent}
    (h : stopLoopTrace timeoutSeconds fuel (s :: rest) w = pre ++ e :: post) :
    (∃ post', stopOneTrace s timeoutSeconds fuel w = pre ++ e :: post') ∨
    ∃ terminated w₁ pre', stopAllOne s timeoutSeconds fuel w = some (terminated, w₁) ∧
      pre = stopOneTrace s timeoutSeconds fuel w ++ pre' ∧
      stopLoopTrace timeoutSeconds fuel rest w₁ = pre' ++ e :: post := by
  unfold stopLoopTrace at h
  rcases split_append h with hone | ⟨pre', hpre, hrest⟩
  · exact .inl hone
  · right
    rcases hx : stopAllOne s timeoutSeconds fuel w with _ | ⟨terminated, w₁⟩
    · rw [hx] at hrest
      simp at hrest
    · rw [hx] at hrest
      exact ⟨terminated, w₁, pre', rfl, hpre, hrest⟩

theorem StopEvent.Escalated.earlier {timeoutSeconds : ℚ} {events : List StopEvent} {event : StopEvent}
    (h : event.Escalated timeoutSeconds events) (prior : List StopEvent) :
    event.Escalated timeoutSeconds (prior ++ events) := by
  obtain ⟨before, w, terminated, hfailed, rfl⟩ := h
  exact ⟨prior ++ before, w, terminated, hfailed, (List.append_assoc ..).symm⟩

theorem stopLoopTrace_proper : ∀ (visits : List ServicePtr) (w : World), visits.Nodup →
    ∀ pre e post, stopLoopTrace timeoutSeconds fuel visits w = pre ++ e :: post → e.Proper timeoutSeconds visits w pre
  | [], _, _, pre, e, post, h => by simp [stopLoopTrace] at h
  | s :: rest, w, hnodup, pre, e, post, h => by
    obtain ⟨hs, hrest⟩ := List.nodup_cons.1 hnodup
    have hturn := stopAllOne_turn s timeoutSeconds fuel w
    have hevents := hturn.events
    rcases stopLoopTrace_split timeoutSeconds fuel h with ⟨post', hone⟩ | ⟨terminated, w₁, pre', hx, rfl, hloop⟩
    · -- in the turn of `s`
      obtain ⟨hown, hwaits, hothers⟩ := hevents.own e (by rw [hone]; exact List.mem_append_right _ List.mem_cons_self)
      refine ⟨by rw [hown]; exact List.mem_cons_self, fun t ht => hothers t fun hc => ht (hc ▸ List.mem_cons_self),
        fun he => ?_, fun he before after hvisits t ht => ?_, hevents.sigkill_escalates hone, hwaits⟩
      · obtain ⟨-, hworld, hrun⟩ := hevents.sigterm_first hone he
        rw [hworld, hown]
        exact hrun
      · -- the first to be visited comes after nobody
        rw [hown] at hvisits
        cases before with
        | nil => cases ht
        | cons b before =>
          rw [List.cons_append, List.cons.injEq] at hvisits
          refine absurd ?_ hs
          rw [hvisits.2]
          exact List.mem_append_right _ List.mem_cons_self
    · -- in a later turn
      rw [hx] at hturn
      have hdone := hturn.done
      have hlater := stopLoopTrace_proper rest w₁ hrest pre' e post hloop
      have hne : e.service ≠ s := fun hc => hs (hc ▸ hlater.visited)
      refine ⟨List.mem_cons_of_mem _ hlater.visited, fun t ht => ?_, hlater.running, fun he before after hvisits t ht => ?_,
        fun he => (hlater.escalated he).earlier _, hlater.waits⟩
      · rw [List.mem_cons, not_or] at ht
        exact (hlater.others t ht.2).trans (hdone.others t ht.1)
      · cases before with
        | nil =>
          rw [List.nil_append, List.cons.injEq] at hvisits
          exact absurd hvisits.1.symm hne
        | cons b before =>
          rw [List.cons_append, List.cons.injEq] at hvisits
          obtain ⟨rfl, hvisits⟩ := hvisits
          rcases List.mem_cons.1 ht with rfl | ht
          · exact hdone.finished.later (hlater.others t hs) pre'
          · exact (hlater.turn he before after hvisits t ht).earlier _

theorem stopLoopTrace_visited {visits : List ServicePtr} {w : World} (hnodup : visits.Nodup) {e : StopEvent}
    (he : e ∈ stopLoopTrace timeoutSeconds fuel visits w) : e.service ∈ visits := by
  obtain ⟨pre, post, heq⟩ := List.append_of_mem he
  exact (stopLoopTrace_proper timeoutSeconds fuel visits w hnodup pre e post heq).visited

/-- Each service has one turn, and a turn has one SIGTERM. -/
theorem stopLoopTrace_once (t : ServicePtr) : ∀ (visits : List ServicePtr) (w : World), visits.Nodup →
    ((stopLoopTrace timeoutSeconds fuel visits w).countP fun e => e.service = t ∧ e.action.isSigterm = true) ≤ 1
  | [], _, _ => Nat.zero_le 1
  | s :: rest, w, hnodup => by
    obtain ⟨hs, hrest⟩ := List.nodup_cons.1 hnodup
    have hevents := (stopAllOne_turn s timeoutSeconds fuel w).events
    have hone : ((stopOneTrace s timeoutSeconds fuel w).countP fun e => e.service = t ∧ e.action.isSigterm = true) ≤ 1 := by
      refine le_trans (List.countP_mono_left fun e _ he => ?_) hevents.sigterm_once
      exact (of_decide_eq_true he).2
    unfold stopLoopTrace
    rw [List.countP_append]
    rcases hx : stopAllOne s timeoutSeconds fuel w with _ | ⟨terminated, w₁⟩
    · rw [List.countP_nil, Nat.add_zero]
      exact hone
    · simp only
      have hloop := stopLoopTrace_once t rest w₁ hrest
      rcases eq_or_ne t s with rfl | hne
      · -- no turn of `s` is left
        have hnone : ((stopLoopTrace timeoutSeconds fuel rest w₁).countP fun e =>
            e.service = t ∧ e.action.isSigterm = true) = 0 := by
          refine List.countP_eq_zero.2 fun e he hc => hs ?_
          rw [← (of_decide_eq_true hc).1]
          exact stopLoopTrace_visited timeoutSeconds fuel hrest he
        rw [hnone, Nat.add_zero]
        exact hone
      · have hnone : ((stopOneTrace s timeoutSeconds fuel w).countP fun e =>
            e.service = t ∧ e.action.isSigterm = true) = 0 := by
          refine List.countP_eq_zero.2 fun e he hc => hne ?_
          rw [← (of_decide_eq_true hc).1]
          exact (hevents.own e he).1
        rw [hnone, Nat.zero_add]
        exact hloop

/-- What the loop has done when it returns. -/
structure LoopDone (visits : List ServicePtr) (events : List StopEvent) (w : World) (stopped result : Int) (w' : World) :
    Prop where
  others : ∀ t, t ∉ visits → w'.service t = w.service t
  counts : result = stopped + (visits.countP fun s => (w.service s).state = .running ∧ (w'.service s).state = .stopped)
  signals : w'.signals = (events.flatMap StopEvent.sent).reverse ++ w.signals
  attempts : ∀ t ∈ visits, (w.service t).state = .running → ∃ e ∈ events, e.service = t ∧ e.action.isSigterm = true

theorem stopAllLoop_done : ∀ (visits : List ServicePtr) (stopped : Int) (w : World) (result : Int) (w' : World),
    visits.Nodup → stopAllLoop timeoutSeconds fuel visits stopped w = some (result, w') →
    LoopDone visits (stopLoopTrace timeoutSeconds fuel visits w) w stopped result w'
  | [], stopped, w, result, w', _, h => by
    cases h
    exact ⟨fun _ _ => rfl, by simp, rfl, by simp⟩
  | s :: rest, stopped, w, result, w', hnodup, h => by
    obtain ⟨hs, hrest⟩ := List.nodup_cons.1 hnodup
    have hturn := stopAllOne_turn s timeoutSeconds fuel w
    unfold stopAllLoop at h
    unfold stopLoopTrace
    rcases hx : stopAllOne s timeoutSeconds fuel w with _ | ⟨terminated, w₁⟩ <;> rw [hx] at h
    · cases h
    simp only at h ⊢
    rw [hx] at hturn
    have hdone := hturn.done
    have hloop := stopAllLoop_done rest _ w₁ result w' hrest h
    refine ⟨fun t ht => ?_, ?_, ?_, fun t ht hst => ?_⟩
    · rw [List.mem_cons, not_or] at ht
      exact (hloop.others t ht.2).trans (hdone.others t ht.1)
    · -- the later turns leave `s` as its own turn left it
      have hself : w'.service s = w₁.service s := hloop.others s hs
      have hcongr : (rest.countP fun t => (w₁.service t).state = .running ∧ (w'.service t).state = .stopped) =
          rest.countP fun t => (w.service t).state = .running ∧ (w'.service t).state = .stopped := by
        refine List.countP_congr fun t ht => ?_
        rw [hdone.others t (fun hc => hs (hc ▸ ht))]
      rw [hloop.counts, hcongr, List.countP_cons, hself]
      rcases hdone.counted with ⟨hone, hrun, hst⟩ | ⟨hne, hst⟩
      · simp [hone, hrun, hst]
        ring
      · rw [hst]
        cases (w.service s).state <;> simp [hne]
    · rw [hloop.signals, hdone.signals, List.flatMap_append, List.reverse_append, List.append_assoc]
    · rcases List.mem_cons.1 ht with rfl | ht
      · obtain ⟨e, he, hterm⟩ := hturn.attempt hst
        exact ⟨e, List.mem_append_left _ he, hterm⟩
      · rw [← hdone.others t (fun hc => hs (hc ▸ ht))] at hst
        obtain ⟨e, he, hterm⟩ := hloop.attempts t ht hst
        exact ⟨e, List.mem_append_right _ he, hterm⟩

end Loop

/-! ## The call returns -/

/-- The clock passes every time, again and again. -/
def Host.ClockAdvances (host : Host) : Prop := ∀ (time : ℚ) (n : Nat), ∃ m, n ≤ m ∧ time ≤ host.clock.get m

theorem Host.ClockAdvances.drop {host host' : Host} (h : host.ClockAdvances)
    (hclock : ∃ n, host'.clock = host.clock.drop n) : host'.ClockAdvances := by
  obtain ⟨k, hk⟩ := hclock
  intro time n
  obtain ⟨m, hm, htime⟩ := h time (n + k)
  refine ⟨m - k, by omega, ?_⟩
  rw [hk, Stream'.get_drop, Nat.add_sub_of_le (by omega)]
  exact htime

section Returns

variable {s : ServicePtr} {timeoutSeconds deadline : ℚ}

theorem waitForTermination_mono : ∀ (fuel fuel' : Nat) (w : World) (result : Int × World), fuel ≤ fuel' →
    serviceOrchestratorWaitForTermination s deadline fuel w = some result →
    serviceOrchestratorWaitForTermination s deadline fuel' w = some result
  | 0, _, _, _, _, h => by cases h
  | fuel + 1, 0, _, _, hle, _ => by omega
  | fuel + 1, fuel' + 1, w, result, hle, h => by
    obtain ⟨outcome, w', -, hw⟩ := waitForTermination_round s deadline w
    rw [hw] at h ⊢
    cases outcome with
    | some terminated => exact h
    | none => exact waitForTermination_mono fuel fuel' w' result (by omega) h

/-- A wait is over at the latest when the clock shows the deadline. -/
theorem waitForTermination_returns : ∀ (n : Nat) (w : World), deadline ≤ w.embla.host.clock.get n →
    ∃ result, serviceOrchestratorWaitForTermination s deadline (n + 1) w = some result
  | n, w, hlate => by
    obtain ⟨outcome, w', hround, hw⟩ := waitForTermination_round s deadline w
    cases hround with
    | late => exact ⟨_, hw n⟩
    | reaped => exact ⟨_, hw n⟩
    | reapFailed => exact ⟨_, hw n⟩
    | pollFailed => exact ⟨_, hw n⟩
    | again hearly =>
      cases n with
      | zero => exact absurd hlate (not_le.2 hearly)
      | succ n =>
        have hclock : (serviceReap s w.monotonicNow.2).2.drainOneEvent.2.embla.host.clock = w.embla.host.clock.tail := by
          rw [World.drainOneEvent_host, (Host.wait4_rest _).2.1, serviceReap_host]
          rfl
        rw [hw]
        refine waitForTermination_returns n _ ?_
        rw [hclock]
        exact hlate

theorem stopAllOne_mono {fuel fuel' : Nat} {w : World} {result : Int × World} (hle : fuel ≤ fuel')
    (h : stopAllOne s timeoutSeconds fuel w = some result) : stopAllOne s timeoutSeconds fuel' w = some result := by
  rw [stopAllOne_eq] at h ⊢
  split
  · rename_i hst
    rwa [if_pos hst] at h
  rename_i hst
  rw [if_neg hst] at h
  split
  · rename_i hr
    rwa [if_pos hr] at h
  rename_i hr
  rw [if_neg hr] at h
  rcases hwait : stopWait s timeoutSeconds fuel w with _ | ⟨terminated, w₁⟩ <;> rw [hwait] at h
  · cases h
  rw [show stopWait s timeoutSeconds fuel' w = some (terminated, w₁) from
    waitForTermination_mono fuel fuel' _ _ hle hwait]
  simp only at h ⊢
  split
  · rename_i hne
    rw [if_pos hne, stopAllEscalate_eq] at h
    rw [stopAllEscalate_eq]
    split
    · rename_i hk
      rw [if_pos hk] at h
      exact waitForTermination_mono fuel fuel' _ _ hle h
    · rename_i hk
      rwa [if_neg hk] at h
  · rename_i hne
    rwa [if_neg hne] at h

variable (s timeoutSeconds) in
theorem stopAllOne_returns {w : World} (hclock : w.embla.host.ClockAdvances) :
    ∃ fuel result, stopAllOne s timeoutSeconds fuel w = some result := by
  have hwaits : ∀ (deadline : ℚ) (u : World), u.embla.host.ClockAdvances →
      ∃ fuel result, serviceOrchestratorWaitForTermination s deadline fuel u = some result := by
    intro deadline u hu
    obtain ⟨n, -, hn⟩ := hu deadline 0
    exact ⟨n + 1, waitForTermination_returns n u hn⟩
  have hstop : (serviceStop s w).2.monotonicNow.2.embla.host.ClockAdvances := by
    obtain ⟨kills, hhost⟩ := World.serviceStop_sent s w
    refine hclock.drop ⟨1, ?_⟩
    change (serviceStop s w).2.embla.host.clock.tail = _
    rw [hhost]
    rfl
  obtain ⟨fuel, ⟨terminated, w₁⟩, hwait⟩ := hwaits (stopDeadline s timeoutSeconds w) _ hstop
  -- the second wait starts where the first one left the clock
  have hkill : (serviceKill s w₁).2.monotonicNow.2.embla.host.ClockAdvances := by
    obtain ⟨kills, hhost⟩ := World.serviceKill_sent s w₁
    obtain ⟨n, hn⟩ := (waitForTermination_waited _ _ _ _ _ _ hwait).clock
    refine (hstop.drop ⟨n, hn⟩).drop ⟨1, ?_⟩
    change (serviceKill s w₁).2.embla.host.clock.tail = _
    rw [hhost]
    rfl
  obtain ⟨fuel', result', hwait'⟩ := hwaits (killDeadline s w₁) _ hkill
  refine ⟨max fuel fuel', ?_⟩
  rw [stopAllOne_eq]
  split
  · exact ⟨_, rfl⟩
  split
  · exact ⟨_, rfl⟩
  rw [show stopWait s timeoutSeconds (max fuel fuel') w = some (terminated, w₁) from
    waitForTermination_mono _ _ _ _ (le_max_left ..) hwait]
  simp only
  split
  · rw [stopAllEscalate_eq]
    split
    · exact ⟨result', waitForTermination_mono _ _ _ _ (le_max_right ..) hwait'⟩
    · exact ⟨_, rfl⟩
  · exact ⟨_, rfl⟩

theorem stopAllLoop_mono {fuel fuel' : Nat} (hle : fuel ≤ fuel') : ∀ (visits : List ServicePtr) (stopped : Int) (w : World)
    (result : Int × World), stopAllLoop timeoutSeconds fuel visits stopped w = some result →
    stopAllLoop timeoutSeconds fuel' visits stopped w = some result
  | [], _, _, _, h => h
  | s :: rest, stopped, w, result, h => by
    unfold stopAllLoop at h ⊢
    rcases hx : stopAllOne s timeoutSeconds fuel w with _ | ⟨terminated, w₁⟩ <;> rw [hx] at h
    · cases h
    · rw [stopAllOne_mono hle hx]
      exact stopAllLoop_mono hle rest _ w₁ result h

theorem stopAllLoop_returns : ∀ (visits : List ServicePtr) (stopped : Int) (w : World), w.embla.host.ClockAdvances →
    ∃ fuel result, stopAllLoop timeoutSeconds fuel visits stopped w = some result
  | [], _, _, _ => ⟨0, _, rfl⟩
  | s :: rest, stopped, w, hclock => by
    obtain ⟨fuel, ⟨terminated, w₁⟩, hx⟩ := stopAllOne_returns s timeoutSeconds hclock
    have hturn := stopAllOne_turn s timeoutSeconds fuel w
    rw [hx] at hturn
    obtain ⟨fuel', result, hloop⟩ := stopAllLoop_returns rest (if terminated = 1 then stopped + 1 else stopped) w₁
      (hclock.drop hturn.done.clock)
    refine ⟨max fuel fuel', result, ?_⟩
    unfold stopAllLoop
    rw [stopAllOne_mono (le_max_left ..) hx]
    exact stopAllLoop_mono (le_max_right ..) rest _ w₁ result hloop

end Returns

/-! ## The whole call -/

/-- SIGTERM goes to each service at most once, while it is running and after the call has finished
with whatever depends on it; SIGKILL goes to a service after its SIGTERM and a wait that failed. A
wait counts as over for its dependencies when it ended in one of the ways of `ends`. -/
structure StopsInOrder (ends : Int → Prop) (heap : Heap Service) (registry : ServiceRegistry) (timeoutSeconds : ℚ)
    (events : List StopEvent) : Prop where
  once : ∀ s, (events.countP fun e => e.service = s ∧ e.action.isSigterm = true) ≤ 1
  running : ∀ e ∈ events, e.action.isSigterm = true →
    e.service ∈ registry.services ∧ (e.world.service e.service).state = .running
  dependents : ∀ before e after, events = before ++ e :: after → e.action.isSigterm = true →
    ∀ t, TransGen (DependsOn heap registry) t e.service → Finished ends before t e.world
  escalates : ∀ before e after, events = before ++ e :: after → e.action.isSigkill = true →
    e.Escalated timeoutSeconds before
  waits : ∀ e ∈ events, e.WaitsOver

theorem stopLoopTrace_inOrder {registry : ServiceRegistry} {w : World} {order : List ServicePtr}
    (horder : StartOrder w.services registry order) (timeoutSeconds : ℚ) (fuel : Nat) :
    StopsInOrder WaitFailed w.services registry timeoutSeconds (stopLoopTrace timeoutSeconds fuel order.reverse w) := by
  have hnodup : order.reverse.Nodup := List.nodup_reverse.2 horder.nodup
  have hproper := stopLoopTrace_proper timeoutSeconds fuel order.reverse w hnodup
  have hmem : ∀ e ∈ stopLoopTrace timeoutSeconds fuel order.reverse w,
      ∃ before, e.Proper timeoutSeconds order.reverse w before := by
    intro e he
    obtain ⟨before, after, heq⟩ := List.append_of_mem he
    exact ⟨before, hproper before e after heq⟩
  refine ⟨fun s => stopLoopTrace_once timeoutSeconds fuel s _ w hnodup, fun e he hterm => ?_,
    fun before e after heq hterm t ht => ?_, fun before e after heq => (hproper before e after heq).escalated,
    fun e he => ?_⟩
  · obtain ⟨before, hp⟩ := hmem e he
    exact ⟨horder.perm.mem_iff.1 (List.mem_reverse.1 hp.visited), hp.running hterm⟩
  · -- in the reverse of the order `t` has its turn before `e.service`
    have hp := hproper before e after heq
    have ht' : t ∈ order := by
      obtain ⟨_, hedge, -⟩ := (TransGen.head'_iff).1 ht
      exact horder.perm.mem_iff.2 hedge.1
    obtain ⟨pre, post, hsplit⟩ := List.append_of_mem ht'
    obtain ⟨pre₁, post₁, rfl⟩ := List.append_of_mem (horder.respects.transGen hsplit ht)
    refine hp.turn hterm (post.reverse ++ t :: post₁.reverse) pre₁.reverse ?_ t ?_
    · rw [hsplit]
      simp
    · exact List.mem_append_right _ List.mem_cons_self
  · obtain ⟨before, hp⟩ := hmem e he
    exact hp.waits

section Call

variable {registry : ServiceRegistry} {w : World} (hreg : registry.Inv w.services) (timeoutSeconds : ℚ)

include hreg

/-- With an order the call is the loop over its reverse. -/
theorem stopAll_loop (hok : w.Orderable registry) : ∃ order allocs, StartOrder w.services registry order ∧
    ∀ fuel, serviceRegistryStopAll registry timeoutSeconds fuel w =
        stopAllLoop timeoutSeconds fuel order.reverse 0 (w.withAllocs allocs) ∧
      stopAllTrace registry timeoutSeconds fuel w =
        stopLoopTrace timeoutSeconds fuel order.reverse (w.withAllocs allocs) := by
  unfold serviceRegistryStopAll stopAllTrace
  by_cases hnil : registry.services = []
  · have hzero := serviceRegistryCount_eq_zero.2 hnil
    refine ⟨[], w.embla.host.allocs, ⟨by rw [hnil], List.nodup_nil, respects_nil⟩, fun fuel => ?_⟩
    simp only [if_pos hzero]
    exact ⟨rfl, rfl⟩
  · have hcount : serviceRegistryCount registry ≠ 0 := fun hc => hnil (serviceRegistryCount_eq_zero.1 hc)
    obtain ⟨allocs, ⟨-, order, horder, hx⟩ | ⟨hno, -⟩⟩ := World.startOrder_spec hreg hnil
    · refine ⟨order, allocs, horder, fun fuel => ?_⟩
      simp only [if_neg hcount, hx]
      exact ⟨trivial, trivial⟩
    · exact absurd hok hno

theorem stopAll_unorderable (hno : ¬ w.Orderable registry) :
    ∃ allocs, ∀ fuel, serviceRegistryStopAll registry timeoutSeconds fuel w = some (-1, w.withAllocs allocs) := by
  have hne : registry.services ≠ [] := fun hnil => hno (.inl hnil)
  have hcount : serviceRegistryCount registry ≠ 0 := fun hc => hne (serviceRegistryCount_eq_zero.1 hc)
  obtain ⟨allocs, ⟨hok, -⟩ | ⟨-, hx⟩⟩ := World.startOrder_spec hreg hne
  · exact absurd hok hno
  · refine ⟨allocs, fun fuel => ?_⟩
    unfold serviceRegistryStopAll
    rw [if_neg hcount, hx]

theorem stopAll_done (hok : w.Orderable registry) {fuel : Nat} {result : Int} {w' : World}
    (hret : serviceRegistryStopAll registry timeoutSeconds fuel w = some (result, w')) :
    LoopDone registry.services (stopAllTrace registry timeoutSeconds fuel w) w 0 result w' := by
  obtain ⟨order, allocs, horder, hx⟩ := stopAll_loop hreg timeoutSeconds hok
  have hnodup : order.reverse.Nodup := List.nodup_reverse.2 horder.nodup
  have hperm : order.reverse.Perm registry.services := (List.reverse_perm order).trans horder.perm
  rw [(hx fuel).1] at hret
  rw [(hx fuel).2]
  have hdone := stopAllLoop_done timeoutSeconds fuel order.reverse 0 _ result w' hnodup hret
  refine ⟨fun t ht => hdone.others t fun hc => ht (hperm.mem_iff.1 hc), ?_, hdone.signals,
    fun t ht => hdone.attempts t (hperm.mem_iff.2 ht)⟩
  rw [hdone.counts, hperm.countP_eq]
  rfl

theorem stopAll_returns (hok : w.Orderable registry) (hclock : w.embla.host.ClockAdvances) :
    ∃ fuel, ∀ fuel', fuel ≤ fuel' → ∃ result, serviceRegistryStopAll registry timeoutSeconds fuel' w = some result := by
  obtain ⟨order, allocs, -, hx⟩ := stopAll_loop hreg timeoutSeconds hok
  have hclock' : (w.withAllocs allocs).embla.host.ClockAdvances := hclock
  obtain ⟨fuel, result, hret⟩ := stopAllLoop_returns order.reverse 0 (w.withAllocs allocs) hclock'
  refine ⟨fuel, fun fuel' hle => ⟨result, ?_⟩⟩
  rw [(hx fuel').1]
  exact stopAllLoop_mono hle _ _ _ _ hret

end Call

/-- However the events and the clock fall out, the signals go out in order; they are all the signals
of the call; what it returns is the number of services it stopped; and it returns if time goes on. -/
theorem stopAll_correct {registry : ServiceRegistry} {w : World} (hreg : registry.Reachable w.services)
    (hok : w.Orderable registry) (timeoutSeconds : ℚ) :
    (∀ fuel, StopsInOrder WaitFailed w.services registry timeoutSeconds (stopAllTrace registry timeoutSeconds fuel w)) ∧
    (∀ fuel result w', serviceRegistryStopAll registry timeoutSeconds fuel w = some (result, w') →
      w'.signals = ((stopAllTrace registry timeoutSeconds fuel w).flatMap StopEvent.sent).reverse ++ w.signals ∧
      result = (registry.services.countP fun s => (w.service s).state = .running ∧ (w'.service s).state = .stopped) ∧
      ∀ s, s ∉ registry.services → w'.service s = w.service s) ∧
    (w.embla.host.ClockAdvances →
      ∃ fuel, ∀ fuel', fuel ≤ fuel' → ∃ result, serviceRegistryStopAll registry timeoutSeconds fuel' w = some result) := by
  refine ⟨fun fuel => ?_, fun fuel result w' hret => ?_, stopAll_returns hreg.inv timeoutSeconds hok⟩
  · obtain ⟨order, allocs, horder, hx⟩ := stopAll_loop hreg.inv timeoutSeconds hok
    rw [(hx fuel).2]
    exact stopLoopTrace_inOrder (w := w.withAllocs allocs) horder timeoutSeconds fuel
  · have hdone := stopAll_done hreg.inv timeoutSeconds hok hret
    exact ⟨hdone.signals, by rw [hdone.counts, zero_add], hdone.others⟩

theorem bothRunning_reachable (answers : List Wait4Answer) : webAndDbRegistry.Reachable (bothRunning answers).services := by
  refine .write webAndDbRegistry_reachable fun s _ => ?_
  have hshape := (World.serviceStart_shape 1 (webAndDbWith answers)).trans (World.serviceStart_shape 0 _)
  exact (hshape s).1

/-- The host fails every poll: the web service is given up on at once, although its grace period of
five seconds has not ended and it is still running, and the database is sent SIGTERM. -/
theorem stopAll_gives_up_early :
    (webAndDbWith (List.replicate 4 .error)).Fresh ∧
    Run (webAndDbWith (List.replicate 4 .error)) (bothRunning (List.replicate 4 .error)) ∧
    webAndDbRegistry.Reachable (bothRunning (List.replicate 4 .error)).services ∧
    (bothRunning (List.replicate 4 .error)).Orderable webAndDbRegistry ∧
    ¬ StopsInOrder (fun terminated => terminated = 0) (bothRunning (List.replicate 4 .error)).services webAndDbRegistry 5
      (stopAllTrace webAndDbRegistry 5 10 (bothRunning (List.replicate 4 .error))) := by
  have hreg := bothRunning_reachable (List.replicate 4 .error)
  refine ⟨webAndDbWith_fresh _, bothRunning_run _, hreg, ?_, fun h => ?_⟩
  · have hx : ((bothRunning (List.replicate 4 .error)).startOrder webAndDbRegistry).map Prod.fst = some (some [1, 0]) := by
      decide +kernel
    exact World.orderable_of_order hreg.inv hx
  · -- the fifth event is the SIGTERM of the database
    have hfirst : ((stopAllTrace webAndDbRegistry 5 10 (bothRunning (List.replicate 4 .error))).take 4).map
        (fun e => (e.service, e.action)) = [(0, .sigterm 0), (0, .waited 5 (-1)), (0, .sigkill 0), (0, .waitedKill 2 (-1))] := by
      decide +kernel
    have hfifth : ((stopAllTrace webAndDbRegistry 5 10 (bothRunning (List.replicate 4 .error))).drop 4).head?.map
        (fun e => (e.service, e.action, (e.world.service 0).state)) = some (1, .sigterm 0, .running) := by
      decide +kernel
    obtain ⟨e, hhead, he⟩ := Option.map_eq_some_iff.1 hfifth
    simp only [Prod.mk.injEq] at he
    obtain ⟨hdb, hterm, hrun⟩ := he
    obtain ⟨rest, hdrop⟩ := List.head?_eq_some_iff.1 hhead
    have hsplit := (List.take_append_drop 4 (stopAllTrace webAndDbRegistry 5 10
      (bothRunning (List.replicate 4 .error)))).symm
    rw [hdrop] at hsplit
    have hedge : DependsOn (bothRunning (List.replicate 4 .error)).services webAndDbRegistry 0 e.service := by
      rw [hdb]
      unfold DependsOn
      decide +kernel
    have hbefore : ∀ (action : StopAction) (v : World), ⟨0, action, v⟩ ∈ (stopAllTrace webAndDbRegistry 5 10
        (bothRunning (List.replicate 4 .error))).take 4 →
        (0, action) ∈ [((0 : ServicePtr), StopAction.sigterm 0), (0, .waited 5 (-1)), (0, .sigkill 0), (0, .waitedKill 2 (-1))] := by
      intro action v hin
      rw [← hfirst]
      exact List.mem_map_of_mem (f := fun e => (e.service, e.action)) hin
    rcases h.dependents _ e rest hsplit (by rw [hterm]; rfl) 0 (.single hedge) with
      hst | ⟨result, v, hne, hin⟩ | ⟨before, deadline, terminated, v, after, heq, hends, -⟩
    · exact hst hrun
    · have hmem := hbefore _ v hin
      simp at hmem
      exact hne hmem
    · have hmem := hbefore (.waited deadline terminated) v (by rw [heq]; exact List.mem_append_right _ List.mem_cons_self)
      simp [hends] at hmem

/-- Each service dies while it is being waited for. -/
theorem stopAll_correct_webAndDb :
    StopsInOrder WaitFailed (bothRunning [.event (exitOf 1 0), .event (exitOf 0 0)]).services webAndDbRegistry 5
        (stopAllTrace webAndDbRegistry 5 10 (bothRunning [.event (exitOf 1 0), .event (exitOf 0 0)])) ∧
      ∃ w', serviceRegistryStopAll webAndDbRegistry 5 10 (bothRunning [.event (exitOf 1 0), .event (exitOf 0 0)]) =
          some (2, w') ∧
        w'.signals = [.killed 1 .sigterm .ok, .killed 2 .sigterm .ok] := by
  have hreg := bothRunning_reachable [.event (exitOf 1 0), .event (exitOf 0 0)]
  have hx : ((bothRunning [.event (exitOf 1 0), .event (exitOf 0 0)]).startOrder webAndDbRegistry).map Prod.fst =
      some (some [1, 0]) := by decide +kernel
  obtain ⟨horder, hreturn, -⟩ := stopAll_correct hreg (World.orderable_of_order hreg.inv hx) 5
  have hend : (serviceRegistryStopAll webAndDbRegistry 5 10 (bothRunning [.event (exitOf 1 0), .event (exitOf 0 0)])).map
      Prod.fst = some 2 := by decide +kernel
  obtain ⟨⟨result, w'⟩, hret, rfl⟩ := Option.map_eq_some_iff.1 hend
  refine ⟨horder 10, w', hret, ?_⟩
  rw [(hreturn 10 _ w' hret).1]
  decide +kernel

end EmblaOs
