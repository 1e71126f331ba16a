/-
The supervisor's flags over whole runs. A start clears neither a pending restart nor an old stop
request, and a due restart is no longer pending when its spawn is tried. From this come the exact
conditions under which a pending restart means a stopped service, the policy is applied to every
instance that was not asked to stop, an explicit stop is final, and no supervised service is lost.
-/
import EmblaOs.Service.Capacity

namespace EmblaOs

open Lib

/-- The call started an instance of `s`. -/
def CallRecord.startsInstance (s : ServicePtr) (c : CallRecord) : Bool :=
  c.call = .start && c.service = s && c.result = 0

/-- The call was a `service_stop` of `s`, accepted or not. -/
def CallRecord.asksToStop (s : ServicePtr) (c : CallRecord) : Bool := c.call = .stop && c.service = s

/-- A start of the stopped `s` with room for its process and with a restart still pending. -/
def CallRecord.StartsOverPending (s : ServicePtr) (c : CallRecord) : Prop :=
  c.call = .start ∧ c.service = s ∧ c.before.state = .stopped ∧ c.embla.Spawnable ∧ c.before.restartPending = true

namespace World

/-- The call that started the latest instance of `s`. -/
def instanceStart (w : World) (s : ServicePtr) : Option CallRecord := w.calls.find? (CallRecord.startsInstance s)

/-- Has `service_stop` been called on `s` since its latest instance was started? -/
def stopCalledSinceStart (w : World) (s : ServicePtr) : Bool :=
  (w.calls.takeWhile fun c => !c.startsInstance s).any (CallRecord.asksToStop s)

/-- What links the flags of `s` to the calls made so far. -/
structure Supervised (s : ServicePtr) (w : World) : Prop where
  inv : w.Inv
  live : (w.service s).state = .running → (w.service s).permanentlyFailed = false
  pending : (∀ c ∈ w.calls, ¬ c.StartsOverPending s) → (w.service s).restartPending = true →
    (w.service s).state = .stopped ∧ (w.service s).permanentlyFailed = false
  since : (w.service s).state = .running → ∃ c, w.instanceStart s = some c ∧
    (w.stopCalledSinceStart s = false → (w.service s).stopRequested = c.before.stopRequested)

variable {s : ServicePtr} {w w' : World}

theorem Supervised.fresh (h : w.Fresh) (s : ServicePtr) : w.Supervised s := by
  refine ⟨h.inv, fun hc => ?_, fun _ hc => ?_, fun hc => ?_⟩
  · rw [(h.services s).state] at hc
    cases hc
  · rw [(h.services s).restartPending] at hc
    cases hc
  · rw [(h.services s).state] at hc
    cases hc

/-- The latest instance is that of before when the calls are, or one more that started no instance. -/
theorem instanceStart_skip
    (hcalls : w'.calls = w.calls ∨ ∃ c, c.startsInstance s = false ∧ w'.calls = c :: w.calls) :
    w'.instanceStart s = w.instanceStart s := by
  unfold instanceStart
  rcases hcalls with heq | ⟨c, hc, heq⟩ <;> rw [heq]
  rw [List.find?_cons_of_neg (by simp [hc])]

theorem mem_calls_skip {d : CallRecord}
    (hcalls : w'.calls = w.calls ∨ ∃ c, c.startsInstance s = false ∧ w'.calls = c :: w.calls) (hd : d ∈ w.calls) :
    d ∈ w'.calls := by
  rcases hcalls with heq | ⟨c, -, heq⟩ <;> rw [heq]
  · exact hd
  · exact List.mem_cons_of_mem _ hd

/-- After one more call that starts no instance the stop may have been that call. -/
theorem stopCalledSinceStart_cons {c : CallRecord} (hc : c.startsInstance s = false) (hcalls : w'.calls = c :: w.calls) :
    w'.stopCalledSinceStart s = (c.asksToStop s || w.stopCalledSinceStart s) := by
  unfold stopCalledSinceStart
  rw [hcalls, List.takeWhile_cons_of_pos (by simp [hc]), List.any_cons]

/-- A call that starts no instance of `s` and leaves its record alone. -/
theorem Supervised.skip (h : w.Supervised s) (hinv : w'.Inv) (hrec : w'.service s = w.service s)
    (hcalls : w'.calls = w.calls ∨ ∃ c, c.startsInstance s = false ∧ w'.calls = c :: w.calls) : w'.Supervised s := by
  refine ⟨hinv, by rw [hrec]; exact h.live, fun hno => ?_, fun hrun => ?_⟩
  · rw [hrec]
    apply h.pending
    intro c hc
    exact hno c (mem_calls_skip hcalls hc)
  · rw [hrec] at hrun ⊢
    obtain ⟨c, h1, h2⟩ := h.since hrun
    refine ⟨c, (instanceStart_skip hcalls).trans h1, fun hstop => h2 ?_⟩
    rcases hcalls with heq | ⟨d, hd, heq⟩
    · rwa [stopCalledSinceStart, heq] at hstop
    · rw [stopCalledSinceStart_cons hd heq, Bool.or_eq_false_iff] at hstop
      exact hstop.2

/-- Of a stopped service only the pending restart needs a look. -/
theorem Supervised.of_stopped (hinv : w.Inv) (hst : (w.service s).state = .stopped)
    (hp : (∀ c ∈ w.calls, ¬ c.StartsOverPending s) → (w.service s).restartPending = true →
      (w.service s).permanentlyFailed = false) : w.Supervised s := by
  refine ⟨hinv, fun hc => ?_, fun hno hpend => ⟨hst, hp hno hpend⟩, fun hc => ?_⟩ <;> rw [hst] at hc <;> cases hc

theorem Supervised.serviceStart (h : w.Supervised s) (t : ServicePtr) : (serviceStart t w).2.Supervised s := by
  have hinv := h.inv.serviceStart t
  by_cases hts : s = t
  · subst hts
    rcases h.inv.start s with ⟨-, hx⟩ | ⟨-, -, e, -, -, -, -, hx⟩ | ⟨hst, hsp, e, -, hx⟩ <;> rw [hx] at hinv ⊢
    · exact h.skip hinv rfl (.inr ⟨_, by simp [CallRecord.startsInstance], rfl⟩)
    · exact h.skip hinv rfl (.inr ⟨_, by simp [CallRecord.startsInstance], rfl⟩)
    · refine ⟨hinv, ?_, fun hno => ?_, fun _ => ⟨⟨.start, s, w.service s, w.embla, 0⟩, ?_, ?_⟩⟩
      · simp [Service.launched]
      · have hbefore := hno ⟨.start, s, w.service s, w.embla, 0⟩ (by simp)
        intro hpend
        have hpend' : (w.service s).restartPending = true := by simpa [Service.launched] using hpend
        exact absurd ⟨rfl, rfl, hst, hsp, hpend'⟩ hbefore
      · simp [instanceStart, CallRecord.startsInstance]
      · simp [Service.launched]
  · refine h.skip hinv (serviceStart_other hts w) (.inr ⟨_, ?_, serviceStart_calls t w⟩)
    simp [CallRecord.startsInstance, Ne.symm hts]

theorem Supervised.serviceStop (h : w.Supervised s) (t : ServicePtr) : (serviceStop t w).2.Supervised s := by
  have hinv := h.inv.serviceStop t
  have hcalls := serviceStop_calls t w
  have hnot : CallRecord.startsInstance s ⟨.stop, t, w.service t, w.embla, (EmblaOs.serviceStop t w).1⟩ = false := by
    simp [CallRecord.startsInstance]
  by_cases hts : s = t
  · subst hts
    rcases serviceStop_self s w with ⟨-, hrec⟩ | ⟨hrun, hrec⟩
    · exact h.skip hinv hrec (.inr ⟨_, hnot, hcalls⟩)
    · obtain ⟨c, h1, -⟩ := h.since hrun
      refine ⟨hinv, by rw [hrec]; exact h.live, fun hno => ?_, fun _ => ⟨c, ?_, fun hstop => ?_⟩⟩
      · rw [hrec]
        exact h.pending fun c hc => hno c (by rw [hcalls]; exact List.mem_cons_of_mem _ hc)
      · exact (instanceStart_skip (.inr ⟨_, hnot, hcalls⟩)).trans h1
      · -- the stop itself is the first call since the start
        rw [stopCalledSinceStart_cons hnot hcalls, Bool.or_eq_false_iff] at hstop
        simp [CallRecord.asksToStop] at hstop
  · exact h.skip hinv (serviceStop_other hts w) (.inr ⟨_, hnot, hcalls⟩)

theorem Supervised.serviceKill (h : w.Supervised s) (t : ServicePtr) : (serviceKill t w).2.Supervised s :=
  h.skip (h.inv.serviceKill t) (serviceKill_service t s w)
    (.inr ⟨_, by simp [CallRecord.startsInstance], serviceKill_calls t w⟩)

/-- Reaping, with the record of the service that was reaped. -/
theorem Supervised.reaped (h : w.Supervised s) :
    ((EmblaOs.serviceReap s w).1 = 0 ∧ (EmblaOs.serviceReap s w).2.service s = w.service s) ∨
    ((EmblaOs.serviceReap s w).1 = 1 ∧ (w.service s).state = .running ∧ ∃ p, (w.service s).process = some p ∧
      (w.embla.process p).state = .terminated ∧
      (EmblaOs.serviceReap s w).2.service s = (w.service s).reaped (w.embla.process p)) := by
  rcases h.inv.reap s with ⟨hx, -⟩ | ⟨p, e, hst, hp, hdead, -, -, hx⟩ <;> rw [hx]
  · exact .inl ⟨rfl, rfl⟩
  · exact .inr ⟨rfl, hst, p, hp, hdead, w.service_modifyService_self ..⟩

theorem Supervised.serviceReap (h : w.Supervised s) (t : ServicePtr) : (serviceReap t w).2.Supervised s := by
  have hinv := h.inv.serviceReap t
  have hcalls := serviceReap_calls t w
  have hskip : ∃ c : CallRecord, c.startsInstance s = false ∧ (EmblaOs.serviceReap t w).2.calls = c :: w.calls :=
    ⟨_, by simp [CallRecord.startsInstance], hcalls⟩
  by_cases hts : s = t
  · subst hts
    rcases h.reaped with ⟨-, hrec⟩ | ⟨-, hrun, p, -, -, hrec⟩
    · exact h.skip hinv hrec (.inr hskip)
    · refine .of_stopped hinv (by rw [hrec]; rfl) fun hno hpend => ?_
      rw [hrec] at hpend
      have := (h.pending (fun c hc => hno c (by rw [hcalls]; exact List.mem_cons_of_mem _ hc)) hpend).1
      rw [hrun] at this
      cases this
  · exact h.skip hinv (serviceReap_other hts w) (.inr hskip)

theorem Supervised.onlyHost (h : w.Supervised s) {e : Embla} (ho : w.embla.OnlyHost e) : (w.withEmbla e).Supervised s :=
  h.skip (h.inv.onlyHost ho) rfl (.inl rfl)

/-- Clearing the pending restart makes its condition void. -/
theorem Supervised.restartCleared (h : w.Supervised s) : (w.restartCleared s).Supervised s := by
  have hrec := w.service_restartCleared s
  refine ⟨h.inv.restartCleared s, by rw [hrec]; exact h.live, fun _ hpend => ?_, by rw [hrec]; exact h.since⟩
  rw [hrec] at hpend
  cases hpend

theorem Supervised.serviceTick_self (h : w.Supervised s) : (serviceTick s w).2.Supervised s := by
  have hinv := h.inv.serviceTick s
  obtain ⟨r, v, -, hv, hout⟩ := serviceTick_ways s w
  rw [hv] at hinv ⊢
  have hreap := h.serviceReap s
  cases hout with
  | waiting => exact h.onlyHost ⟨_, rfl⟩
  | due => exact h.restartCleared.serviceStart s
  | idle => exact hreap
  | noRestart => exact hreap
  | stopHonoured hp hone hs =>
    rcases h.reaped with ⟨hzero, -⟩ | ⟨-, -, p, -, -, hrec⟩
    · rw [hzero] at hone
      cases hone
    · refine .of_stopped hinv (by simp [hrec, serviceSetStopRequested, Service.reaped]) fun _ hpend => ?_
      rw [service_modifyService_self, hrec] at hpend
      have : (w.service s).restartPending = true := hpend
      rw [hp] at this
      cases this
  | restart hp hone hs hn =>
    rcases h.reaped with ⟨hzero, -⟩ | ⟨-, hrun, p, -, -, hrec⟩
    · rw [hzero] at hone
      cases hone
    · rw [serviceScheduleRestart_eq] at hinv ⊢
      have hself := ((EmblaOs.serviceReap s w).2.withEmbla (EmblaOs.serviceReap s w).2.embla.ticked).service_modifyService_self
        s (Service.rescheduled (EmblaOs.serviceReap s w).2.embla.host.clock.head)
      rw [service_withEmbla, hrec] at hself
      refine .of_stopped hinv ?_ fun _ hpend => ?_
      · rw [hself, (Service.rescheduled_kept _ _).1]
        rfl
      · -- the instance was running, so it was not given up
        rw [hself] at hpend ⊢
        by_cases hgive : ((w.service s).reaped (w.embla.process p)).nextRestartCount
            (EmblaOs.serviceReap s w).2.embla.host.clock.head > ((w.service s).reaped (w.embla.process p)).maxConsecutiveRestarts
        · rw [Service.rescheduled_gaveUp hgive] at hpend
          have : (w.service s).restartPending = true := hpend
          rw [hp] at this
          cases this
        · rw [Service.rescheduled_pending hgive]
          exact h.live hrun

theorem Supervised.step (h : w.Supervised s) (hs : Step w w') : w'.Supervised s := by
  cases hs with
  | start t => exact h.serviceStart t
  | stop t => exact h.serviceStop t
  | kill t => exact h.serviceKill t
  | reap t => exact h.serviceReap t
  | tick t =>
    by_cases hts : s = t
    · subst hts
      exact h.serviceTick_self
    · refine h.skip (h.inv.serviceTick t) (serviceTick_other hts w) ((serviceTick_calls t w).imp_right ?_)
      rintro ⟨c, hc, hcalls⟩
      exact ⟨c, by simp [CallRecord.startsInstance, hc, Ne.symm hts], hcalls⟩
  | drain => exact h.skip h.inv.drainOneEvent rfl (.inl rfl)
  | aged _ => exact h.onlyHost ⟨_, rfl⟩

theorem Supervised.run (h₀ : w.Fresh) (hrun : Run w w') (s : ServicePtr) : w'.Supervised s :=
  hrun.invariant (fun _ _ => Supervised.step) (.fresh h₀ s)

end World

/-! ## A pending restart -/

/-- As long as no start of the service went ahead over a pending restart, a pending restart means
that the service is stopped, without a process and not given up, so the start that the due restart
makes finds it stopped. -/
theorem restartPending_implies_stopped {w₀ w : World} (h₀ : w₀.Fresh) (hrun : Run w₀ w) (s : ServicePtr)
    (hok : ∀ c ∈ w.calls, ¬ c.StartsOverPending s) (hpend : (w.service s).restartPending = true) :
    (w.service s).state = .stopped ∧ (w.service s).process = none ∧ (w.service s).permanentlyFailed = false ∧
      ((w.restartCleared s).service s).state = .stopped := by
  have h := World.Supervised.run h₀ hrun s
  obtain ⟨hst, hfailed⟩ := h.pending hok hpend
  refine ⟨hst, h.inv.idle s hst, hfailed, ?_⟩
  rw [World.service_restartCleared]
  exact hst

/-- A service that is restarted whatever its instances end with. -/
def alwaysWorker : Service := { serviceCreate "worker" with restartPolicy := .always }

theorem alwaysWorker_fresh : alwaysWorker.Fresh := ⟨rfl, rfl, rfl, rfl, rfl, rfl⟩

/-- The first instance crashes, the second exits; a minute passes after the first three looks at the
clock. -/
def crashThenExit : World :=
  .boot alwaysWorker (.generous [.event (exitOf 0 1), .event (exitOf 1 0)] [0, 0, 0] 60)

theorem crashThenExit_fresh : crashThenExit.Fresh := World.boot_fresh alwaysWorker_fresh _

/-- The crash has been seen and the restart is scheduled. -/
def restartScheduled : World := (serviceTick 0 (serviceStart 0 crashThenExit).2.drainOneEvent.2).2

theorem restartScheduled_run : Run crashThenExit restartScheduled :=
  (((Runs.refl _).next (.start 0) trivial rfl).next .drain trivial rfl).next (.tick 0) trivial rfl

/-- The program does not wait for the restart and starts the service itself. -/
def startedByHand : World := (serviceStart 0 restartScheduled).2

theorem startedByHand_run : Run crashThenExit startedByHand := restartScheduled_run.next (.start 0) trivial rfl

theorem restartPending_while_running :
    crashThenExit.Fresh ∧ Run crashThenExit startedByHand ∧
    (startedByHand.service 0).restartPending = true ∧ (startedByHand.service 0).state = .running :=
  ⟨crashThenExit_fresh, startedByHand_run, by decide +kernel, by decide +kernel⟩

theorem restartPending_after_crash :
    (restartScheduled.service 0).restartPending = true ∧ (restartScheduled.service 0).state = .stopped := by
  have hok : restartScheduled.calls.all (fun c => !(c.call = .start && c.before.restartPending)) = true := by
    decide +kernel
  have hpend : (restartScheduled.service 0).restartPending = true := by decide +kernel
  refine ⟨hpend, (restartPending_implies_stopped crashThenExit_fresh restartScheduled_run 0 ?_ hpend).1⟩
  rintro c hc ⟨h1, -, -, -, h2⟩
  have := List.all_eq_true.1 hok c hc
  simp [h1, h2] at this

/-! ## The policy -/

/-- The policy of a service calls for a restart after an instance that ended as `process` says. -/
def Service.WantsRestart (service : Service) (process : Process) : Prop :=
  service.restartPolicy = .always ∨
    service.restartPolicy = .onFailure ∧ ¬ (process.termSignal = -1 ∧ process.exitCode = 0)

theorem Service.WantsRestart.shouldRestart {service : Service} {process : Process} (h : service.WantsRestart process) :
    (service.reaped process).shouldRestart = true := by
  unfold Service.shouldRestart
  rcases h with h | ⟨h, hunclean⟩
  · rw [show (service.reaped process).restartPolicy = .always from h]
  · rw [show (service.reaped process).restartPolicy = .onFailure from h]
    have hclean : (service.reaped process).wasCleanExit = false := by
      change (decide (process.termSignal = -1) && decide (process.exitCode = 0)) = false
      rw [← Bool.decide_and, decide_eq_false_iff_not]
      exact hunclean
    simp only [hclean, Bool.not_false]

/-- In every run, a tick that reaps an instance nobody asked to stop applies the policy exactly when
the service carried no stop request at the moment the instance was started. What the policy asks for is
read off the end that the process shows. -/
theorem tick_applies_policy_iff {w₀ w : World} (h₀ : w₀.Fresh) (hrun : Run w₀ w) {s : ServicePtr} {p : ProcessPtr}
    (hpend : (w.service s).restartPending = false) (hproc : (w.service s).process = some p)
    (hdead : (w.embla.process p).state = .terminated) (hstop : w.stopCalledSinceStart s = false)
    (hwants : (w.service s).WantsRestart (w.embla.process p)) :
    ∃ c, w.instanceStart s = some c ∧
      (((serviceTick s w).1 = .reapedRestartScheduled ∨ (serviceTick s w).1 = .gaveUp) ↔
        c.before.stopRequested = false) := by
  have h := World.Supervised.run h₀ hrun s
  have hrunning := (h.inv.tracked hproc).1
  obtain ⟨c, hc, hflag⟩ := h.since hrunning
  refine ⟨c, hc, ?_⟩
  rw [← hflag hstop]
  obtain ⟨hone, hrec, -⟩ := h.inv.reap_dead hproc hdead
  -- the reap inside the tick keeps the stop request, and that alone decides
  have hreq : ((serviceReap s w).2.service s).stopRequested = (w.service s).stopRequested := by
    rw [hrec]
    rfl
  obtain ⟨r, v, hr, -, hout⟩ := serviceTick_ways s w
  rw [hr]
  cases hout with
  | waiting hp => rw [hpend] at hp; cases hp
  | due hp => rw [hpend] at hp; cases hp
  | idle _ hle => rw [hone] at hle; exact absurd hle (by decide)
  | stopHonoured _ _ hs =>
    rw [hreq] at hs
    simp [hs]
  | noRestart _ _ _ hn =>
    rw [hrec, hwants.shouldRestart] at hn
    cases hn
  | restart _ _ hs _ =>
    rw [hreq] at hs
    rw [serviceScheduleRestart_eq, hs]
    simp only [iff_true]
    split
    · exact .inr rfl
    · exact .inl rfl

/-- The first instance has ended after a stop and was reaped directly; the second was started and has
ended by itself. -/
def endedAfterOldStop : World :=
  (serviceStart 0 (serviceReap 0 (serviceStop 0 (serviceStart 0 crashThenExit).2).2.drainOneEvent.2).2).2.drainOneEvent.2

theorem endedAfterOldStop_run : Run crashThenExit endedAfterOldStop :=
  ((((((Runs.refl _).next (.start 0) trivial rfl).next (.stop 0) trivial rfl).next .drain trivial rfl).next
    (.reap 0) trivial rfl).next (.start 0) trivial rfl).next .drain trivial rfl

/-- The old stop request keeps the second instance from being restarted. -/
theorem tick_skips_policy_after_old_stop :
    crashThenExit.Fresh ∧ Run crashThenExit endedAfterOldStop ∧
    (endedAfterOldStop.service 0).restartPending = false ∧ (endedAfterOldStop.service 0).process = some 1 ∧
    (endedAfterOldStop.embla.process 1).state = .terminated ∧ endedAfterOldStop.stopCalledSinceStart 0 = false ∧
    (endedAfterOldStop.service 0).WantsRestart (endedAfterOldStop.embla.process 1) ∧
    (serviceTick 0 endedAfterOldStop).1 = .reapedNoRestart :=
  ⟨crashThenExit_fresh, endedAfterOldStop_run, by decide +kernel, by decide +kernel, by decide +kernel,
    by decide +kernel, .inl (by decide +kernel), by decide +kernel⟩

/-- The first instance has crashed. -/
def firstCrashed : World := (serviceStart 0 crashThenExit).2.drainOneEvent.2

theorem tick_applies_policy_firstCrashed :
    ∃ c, firstCrashed.instanceStart 0 = some c ∧
      (((serviceTick 0 firstCrashed).1 = .reapedRestartScheduled ∨ (serviceTick 0 firstCrashed).1 = .gaveUp) ↔
        c.before.stopRequested = false) :=
  tick_applies_policy_iff crashThenExit_fresh
    (((Runs.refl _).next (.start 0) trivial rfl).next .drain trivial rfl) (p := 0) (by decide +kernel)
    (by decide +kernel) (by decide +kernel) (by decide +kernel) (.inl (by decide +kernel))

/-! ## An explicit stop -/

/-- The operations on single services, those that start `s` apart. -/
def Op.LeavesStopped (s : ServicePtr) : Op → Prop
  | .start t => t ≠ s
  | .stop _ | .kill _ | .reap _ | .tick _ | .drain => True
  | .startAll _ | .stopAll .. => False

/-- No restart is pending and the running instance, if there is one, is asked to stop. -/
def Service.StaysStopped (service : Service) : Prop :=
  service.restartPending = false ∧ (service.state = .running → service.stopRequested = true)

theorem StaysStopped.reap {s : ServicePtr} {w : World} (h : (w.service s).StaysStopped) :
    ((serviceReap s w).2.service s).StaysStopped ∧
      ((serviceReap s w).1 = 1 → ((serviceReap s w).2.service s).stopRequested = true ∧
        ((serviceReap s w).2.service s).state = .stopped) := by
  rcases serviceReap_self s w with ⟨hle, hrec | ⟨process, hrec⟩⟩ | ⟨hrun, hone, p, -, -, hrec⟩ <;> rw [hrec]
  · exact ⟨h, fun hone => by omega⟩
  · exact ⟨h, fun hone => by omega⟩
  · exact ⟨⟨h.1, fun hc => by cases hc⟩, fun _ => ⟨h.2 hrun, rfl⟩⟩

/-- A tick of such a service neither restarts nor schedules, and leaves it such a service. -/
theorem StaysStopped.tick {s : ServicePtr} {w : World} (h : (w.service s).StaysStopped) :
    ((serviceTick s w).2.service s).StaysStopped ∧ (serviceTick s w).1 ≠ .restarted ∧
      (serviceTick s w).1 ≠ .reapedRestartScheduled := by
  obtain ⟨hreap, hone⟩ := StaysStopped.reap h
  obtain ⟨r, v, hr, hv, hout⟩ := serviceTick_ways s w
  rw [hr, hv]
  cases hout with
  | waiting hp => rw [h.1] at hp; cases hp
  | due hp => rw [h.1] at hp; cases hp
  | idle =>
    refine ⟨hreap, ?_⟩
    split <;> exact ⟨by decide, by decide⟩
  | stopHonoured _ hr' =>
    refine ⟨?_, by decide, by decide⟩
    rw [World.service_modifyService_self]
    refine ⟨hreap.1, fun hc => ?_⟩
    have := (hone hr').2
    rw [show ((serviceReap s w).2.service s).state = .running from hc] at this
    cases this
  | noRestart => exact ⟨hreap, by decide, by decide⟩
  | restart _ hr' hs =>
    rw [(hone hr').1] at hs
    cases hs

theorem StaysStopped.exec {s : ServicePtr} {w w' : World} (h : (w.service s).StaysStopped) {op : Op}
    (hop : op.LeavesStopped s) (hx : op.exec w = some w') : (w'.service s).StaysStopped := by
  cases op with
  | start t =>
    cases hx
    rw [serviceStart_other (Ne.symm hop)]
    exact h
  | stop t =>
    cases hx
    rcases eq_or_ne s t with rfl | hne
    · rcases serviceStop_self s w with ⟨-, hrec⟩ | ⟨-, hrec⟩ <;> rw [hrec]
      · exact h
      · exact ⟨h.1, fun _ => rfl⟩
    · rw [serviceStop_other hne]
      exact h
  | kill t =>
    cases hx
    rw [serviceKill_service]
    exact h
  | reap t =>
    cases hx
    rcases eq_or_ne s t with rfl | hne
    · exact (StaysStopped.reap h).1
    · rw [serviceReap_other hne]
      exact h
  | tick t =>
    cases hx
    rcases eq_or_ne s t with rfl | hne
    · exact (StaysStopped.tick h).1
    · rw [serviceTick_other hne]
      exact h
  | drain =>
    cases hx
    exact h
  | startAll => exact hop.elim
  | stopAll => exact hop.elim

/-- After a successful stop with no restart pending, no tick restarts the service or schedules a
restart until the service is started again. -/
theorem explicit_stop_is_final {w w' : World} {s : ServicePtr} (hstop : (serviceStop s w).1 = 0)
    (hpend : (w.service s).restartPending = false)
    (hrun : RunWhere (fun _ op => op.LeavesStopped s) (serviceStop s w).2 w') :
    (serviceTick s w').1 ≠ .restarted ∧ (serviceTick s w').1 ≠ .reapedRestartScheduled := by
  have hstart : ((serviceStop s w).2.service s).StaysStopped := by
    rcases serviceStop_self s w with ⟨hfail, -⟩ | ⟨-, hrec⟩
    · rw [hstop] at hfail
      cases hfail
    · rw [hrec]
      exact ⟨hpend, fun _ => rfl⟩
  have hstay : (w'.service s).StaysStopped :=
    hrun.holds (I := fun v => (v.service s).StaysStopped) (fun _ _ _ h hok hx => StaysStopped.exec h hok hx) hstart
  exact (StaysStopped.tick hstay).2

/-- The instance started by hand is stopped, ends and is reaped directly. -/
def stoppedByHand : World := (serviceReap 0 (serviceStop 0 startedByHand).2.drainOneEvent.2).2

/-- The restart that was pending all the while brings the service back. -/
theorem explicit_stop_undone :
    crashThenExit.Fresh ∧ Run crashThenExit startedByHand ∧ (serviceStop 0 startedByHand).1 = 0 ∧
    RunWhere (fun _ op => op.LeavesStopped 0) (serviceStop 0 startedByHand).2 stoppedByHand ∧
    (serviceTick 0 stoppedByHand).1 = .restarted :=
  ⟨crashThenExit_fresh, startedByHand_run, by decide +kernel,
    ((Runs.refl _).next .drain trivial rfl).next (.reap 0) trivial rfl, by decide +kernel⟩

theorem explicit_stop_is_final_crashThenExit :
    (serviceStop 0 (serviceStart 0 crashThenExit).2).1 = 0 ∧
    (serviceTick 0 (serviceStop 0 (serviceStart 0 crashThenExit).2).2.drainOneEvent.2).1 ≠ .restarted ∧
    (serviceTick 0 (serviceStop 0 (serviceStart 0 crashThenExit).2).2.drainOneEvent.2).1 ≠ .reapedRestartScheduled :=
  ⟨by decide +kernel, explicit_stop_is_final (w := (serviceStart 0 crashThenExit).2) (by decide +kernel)
    (by decide +kernel) ((Runs.refl _).next .drain trivial rfl)⟩

/-! ## Supervision without stops -/

/-- What the supervisor loop does, with starts at any time. -/
def Op.Supervises : Op → Prop
  | .start _ | .tick _ | .drain => True
  | .stop _ | .kill _ | .reap _ | .startAll _ | .stopAll .. => False

/-- The next tick of the stopped `s` makes its pending restart. -/
def World.RestartDue (s : ServicePtr) (w : World) : Prop :=
  (w.service s).restartPending = true ∧ (w.service s).state = .stopped ∧
    ¬ w.embla.host.clock.head < (w.service s).restartAllowedAt

/-- A supervisor's operation that makes a due restart of `s` only when there is room for it. -/
def RestartsWithRoom (s : ServicePtr) (w : World) (op : Op) : Prop :=
  op.Supervises ∧ (op = .tick s → w.RestartDue s → w.embla.Spawnable)

theorem Embla.Spawnable.ticked {e : Embla} : e.ticked.Spawnable ↔ e.Spawnable :=
  ⟨fun h => ⟨⟨h.1.groups, h.1.groupIds, h.1.processes, h.1.pids, h.1.allocs, h.1.fork⟩, h.2⟩,
    fun h => ⟨⟨h.1.groups, h.1.groupIds, h.1.processes, h.1.pids, h.1.allocs, h.1.fork⟩, h.2⟩⟩

namespace World

/-- Some call has started an instance of `s`. -/
def WasStarted (w : World) (s : ServicePtr) : Prop := ∃ c ∈ w.calls, c.startsInstance s = true

/-- Running or waiting for a restart. -/
def Kept (w : World) (s : ServicePtr) : Prop :=
  (w.service s).state = .running ∨ (w.service s).restartPending = true

structure Guarded (s : ServicePtr) (w : World) : Prop where
  inv : w.Inv
  policy : (w.service s).restartPolicy = .always
  unasked : (w.service s).stopRequested = false
  kept : w.WasStarted s → (w.service s).permanentlyFailed = false → w.Kept s

variable {s : ServicePtr} {w w' : World}

/-- A call that starts no instance of `s` and leaves its record alone. -/
theorem Guarded.skip (h : w.Guarded s) (hinv : w'.Inv) (hrec : w'.service s = w.service s)
    (hcalls : w'.calls = w.calls ∨ ∃ c, c.startsInstance s = false ∧ w'.calls = c :: w.calls) : w'.Guarded s := by
  refine ⟨hinv, by rw [hrec]; exact h.policy, by rw [hrec]; exact h.unasked, fun hst hf => ?_⟩
  unfold Kept
  rw [hrec] at hf ⊢
  apply h.kept _ hf
  obtain ⟨c, hc, hsi⟩ := hst
  rcases hcalls with heq | ⟨d, hd, heq⟩ <;> rw [heq] at hc
  · exact ⟨c, hc, hsi⟩
  · rcases List.mem_cons.1 hc with rfl | hc
    · rw [hd] at hsi
      cases hsi
    · exact ⟨c, hc, hsi⟩

theorem Guarded.serviceStart (h : w.Guarded s) (t : ServicePtr) : (serviceStart t w).2.Guarded s := by
  have hinv := h.inv.serviceStart t
  have hcalls := serviceStart_calls t w
  by_cases hts : s = t
  · subst hts
    rcases serviceStart_self s w with ⟨hfail, hrec⟩ | ⟨-, -, p, now, hrec⟩
    · refine h.skip hinv hrec (.inr ⟨_, ?_, hcalls⟩)
      simp [CallRecord.startsInstance, hfail]
    · refine ⟨hinv, by rw [hrec]; exact h.policy, by rw [hrec]; exact h.unasked, fun _ _ => .inl ?_⟩
      rw [hrec]
      rfl
  · refine h.skip hinv (serviceStart_other hts w) (.inr ⟨_, ?_, hcalls⟩)
    simp [CallRecord.startsInstance, Ne.symm hts]

/-- A due restart with room for it ends in a running service; one that finds the service running
leaves it running. -/
theorem Guarded.due (h : w.Guarded s) (hp : (w.service s).restartPending = true)
    (hge : ¬ w.embla.host.clock.head < (w.service s).restartAllowedAt)
    (hroom : w.RestartDue s → w.embla.Spawnable) :
    (EmblaOs.serviceStart s (w.restartCleared s)).2.Guarded s := by
  have hclear := w.service_restartCleared s
  have hinv := h.inv.restartCleared s
  have hguard : (EmblaOs.serviceStart s (w.restartCleared s)).2.Inv := hinv.serviceStart s
  cases hst : (w.service s).state with
  | stopped =>
    have hsp : (w.restartCleared s).embla.Spawnable := Embla.Spawnable.ticked.2 (hroom ⟨hp, hst, hge⟩)
    rcases hinv.start s with ⟨hne, -⟩ | ⟨-, hno, -⟩ | ⟨-, -, e, -, hx⟩
    · rw [hclear] at hne
      exact absurd hst hne
    · exact absurd hsp hno
    · rw [hx] at hguard ⊢
      refine ⟨hguard, ?_, ?_, fun _ _ => .inl ?_⟩ <;>
        simp only [service_logged, service_modifyService_self, service_withEmbla, hclear]
      · exact h.policy
      · exact h.unasked
      · rfl
  | running =>
    have hnot : ((w.restartCleared s).service s).state ≠ .stopped := by
      rw [hclear]
      exact fun hs => by cases hst.symm.trans hs
    rcases hinv.start s with ⟨-, hx⟩ | ⟨hs, -⟩ | ⟨hs, -⟩
    · rw [hx] at hguard ⊢
      refine ⟨hguard, ?_, ?_, fun _ _ => .inl ?_⟩ <;> simp only [service_logged, hclear]
      · exact h.policy
      · exact h.unasked
      · exact hst
    · exact absurd hs hnot
    · exact absurd hs hnot

theorem Guarded.serviceTick_self (h : w.Guarded s) (hroom : w.RestartDue s → w.embla.Spawnable) :
    (serviceTick s w).2.Guarded s := by
  have hinv := h.inv.serviceTick s
  obtain ⟨r, v, -, hv, hout⟩ := serviceTick_ways s w
  rw [hv] at hinv ⊢
  -- a tick that reaps finds neither a stop request nor a policy against the restart
  have hreap : ((EmblaOs.serviceReap s w).1 = 0 ∧ (EmblaOs.serviceReap s w).2.service s = w.service s) ∨
      ((EmblaOs.serviceReap s w).1 = 1 ∧
        ∃ process, (EmblaOs.serviceReap s w).2.service s = (w.service s).reaped process) := by
    rcases h.inv.reap s with ⟨hx, -⟩ | ⟨p, e, -, -, -, -, -, hx⟩ <;> rw [hx]
    · exact .inl ⟨rfl, rfl⟩
    · exact .inr ⟨rfl, _, w.service_modifyService_self ..⟩
  cases hout with
  | waiting => exact h.skip hinv rfl (.inl rfl)
  | due hp hge => exact h.due hp hge hroom
  | idle _ hle =>
    rcases hreap with ⟨-, hrec⟩ | ⟨hone, -⟩
    · exact h.skip hinv hrec (.inr ⟨_, by simp [CallRecord.startsInstance], serviceReap_calls s w⟩)
    · omega
  | stopHonoured _ hone hs =>
    rcases hreap with ⟨hzero, -⟩ | ⟨-, process, hrec⟩
    · omega
    · rw [hrec] at hs
      have : (w.service s).stopRequested = true := hs
      rw [h.unasked] at this
      cases this
  | noRestart _ hone _ hn =>
    rcases hreap with ⟨hzero, -⟩ | ⟨-, process, hrec⟩
    · omega
    · rw [hrec, Service.WantsRestart.shouldRestart (.inl h.policy)] at hn
      cases hn
  | restart _ hone =>
    rcases hreap with ⟨hzero, -⟩ | ⟨-, process, hrec⟩
    · omega
    · rw [serviceScheduleRestart_eq] at hinv ⊢
      have hself := ((EmblaOs.serviceReap s w).2.withEmbla (EmblaOs.serviceReap s w).2.embla.ticked).service_modifyService_self
        s (Service.rescheduled (EmblaOs.serviceReap s w).2.embla.host.clock.head)
      rw [service_withEmbla, hrec] at hself
      by_cases hgive : ((w.service s).reaped process).nextRestartCount
          (EmblaOs.serviceReap s w).2.embla.host.clock.head > ((w.service s).reaped process).maxConsecutiveRestarts
      · rw [Service.rescheduled_gaveUp hgive] at hself
        refine ⟨hinv, by rw [hself]; exact h.policy, by rw [hself]; exact h.unasked, fun _ hf => ?_⟩
        rw [hself] at hf
        cases hf
      · rw [Service.rescheduled_pending hgive] at hself
        refine ⟨hinv, by rw [hself]; exact h.policy, by rw [hself]; exact h.unasked, fun _ _ => .inr ?_⟩
        rw [hself]

theorem Guarded.exec (h : w.Guarded s) {op : Op} (hop : RestartsWithRoom s w op) (hx : op.exec w = some w') :
    w'.Guarded s := by
  obtain ⟨hsup, hroom⟩ := hop
  cases op with
  | start t =>
    cases hx
    exact h.serviceStart t
  | tick t =>
    cases hx
    by_cases hts : s = t
    · subst hts
      exact h.serviceTick_self (hroom rfl)
    · refine h.skip (h.inv.serviceTick t) (serviceTick_other hts w) ((serviceTick_calls t w).imp_right ?_)
      rintro ⟨c, hc, hcalls⟩
      exact ⟨c, by simp [CallRecord.startsInstance, hc, Ne.symm hts], hcalls⟩
  | drain =>
    cases hx
    exact h.skip h.inv.drainOneEvent rfl (.inl rfl)
  | stop => exact hsup.elim
  | kill => exact hsup.elim
  | reap => exact hsup.elim
  | startAll => exact hsup.elim
  | stopAll => exact hsup.elim

end World

/-- In a run whose due restarts of `s` all find room, `s` is never lost; a due restart that finds no
room always loses it. -/
theorem supervised_service_kept {w₀ : World} (h₀ : w₀.Fresh) {s : ServicePtr}
    (hpolicy : (w₀.service s).restartPolicy = .always) :
    (∀ w, RunWhere (RestartsWithRoom s) w₀ w → w.WasStarted s → (w.service s).permanentlyFailed = false → w.Kept s) ∧
    ∀ w, Run w₀ w → w.RestartDue s → ¬ w.embla.Spawnable →
      (serviceTick s w).1 = .error ∧ ¬ (serviceTick s w).2.Kept s := by
  constructor
  · intro w hrun
    have h : w.Guarded s := by
      refine hrun.holds (I := fun v => v.Guarded s) (fun _ _ _ h hok hx => h.exec hok hx)
        ⟨h₀.inv, hpolicy, (h₀.services s).stopRequested, ?_⟩
      rintro ⟨c, hc, -⟩
      rw [h₀.calls] at hc
      cases hc
    exact h.kept
  · rintro w hrun ⟨hp, hst, hge⟩ hno
    -- the flag is cleared before the start that fails
    have hinv := (h₀.inv.run hrun).restartCleared s
    have hclear := w.service_restartCleared s
    have htick : serviceTick s w = (.error, (serviceStart s (w.restartCleared s)).2) ∧
        (serviceStart s (w.restartCleared s)).2.service s = serviceSetRestartPending (w.service s) false := by
      rcases hinv.start s with ⟨hne, -⟩ | ⟨-, -, e, -, -, -, -, hx⟩ | ⟨-, hsp, -⟩
      · rw [hclear] at hne
        exact absurd hst hne
      · refine ⟨?_, by rw [hx]; exact hclear⟩
        unfold serviceTick
        rw [if_pos hp, serviceTickPending_eq, if_neg hge, hx]
        rfl
      · exact absurd (Embla.Spawnable.ticked.1 hsp) hno
    rw [htick.1]
    refine ⟨rfl, ?_⟩
    unfold World.Kept
    rw [htick.2]
    rintro (hc | hc)
    · have : (w.service s).state = .running := hc
      rw [hst] at this
      cases this
    · cases hc

/-- The first instance crashes and every later fork fails. -/
def crashThenNoFork : World :=
  .boot alwaysWorker { Host.generous [.event (exitOf 0 1)] [0, 0] 60 with
    forks := fun n => if n = 0 then some ⟨1, Int.one_pos⟩ else none }

theorem crashThenNoFork_fresh : crashThenNoFork.Fresh := World.boot_fresh alwaysWorker_fresh _

/-- The crash has been seen, the restart is scheduled and due. -/
def restartDueWithoutFork : World := (serviceTick 0 (serviceStart 0 crashThenNoFork).2.drainOneEvent.2).2

/-- The tick that makes the restart returns an error and the service is neither running nor waiting. -/
theorem supervised_service_dropped :
    crashThenNoFork.Fresh ∧ (crashThenNoFork.service 0).restartPolicy = .always ∧
    RunWhere (fun _ op => op.Supervises) crashThenNoFork (serviceTick 0 restartDueWithoutFork).2 ∧
    (serviceTick 0 restartDueWithoutFork).1 = .error ∧
    (serviceTick 0 restartDueWithoutFork).2.WasStarted 0 ∧
    ((serviceTick 0 restartDueWithoutFork).2.service 0).permanentlyFailed = false ∧
    ¬ (serviceTick 0 restartDueWithoutFork).2.Kept 0 := by
  refine ⟨crashThenNoFork_fresh, rfl, ?_, by decide +kernel, ?_, by decide +kernel, ?_⟩
  · exact ((((Runs.refl _).next (.start 0) trivial rfl).next .drain trivial rfl).next (.tick 0) trivial rfl).next
      (.tick 0) trivial rfl
  · have : (serviceTick 0 restartDueWithoutFork).2.calls.any (CallRecord.startsInstance 0) = true := by decide +kernel
    exact List.any_eq_true.1 this
  · unfold World.Kept
    decide +kernel

/-- The restart is not due at the first tick and made at the second. -/
def restartedInTime : World := (serviceTick 0 (serviceTick 0 restartScheduled).2).2

theorem supervised_service_kept_crashThenExit :
    restartedInTime.Kept 0 ∧ (restartedInTime.service 0).process = some 1 := by
  have hstarted : restartedInTime.calls.any (CallRecord.startsInstance 0) = true := by decide +kernel
  have hroom : (serviceTick 0 restartScheduled).2.embla.Spawnable :=
    ⟨⟨by decide +kernel, by decide +kernel, by decide +kernel, by decide +kernel, by decide +kernel,
      by decide +kernel, by decide +kernel⟩, by decide +kernel⟩
  refine ⟨(supervised_service_kept crashThenExit_fresh (s := 0) rfl).1 restartedInTime ?_ (List.any_eq_true.1 hstarted)
    (by decide +kernel), by decide +kernel⟩
  have hscheduled : RunWhere (RestartsWithRoom 0) crashThenExit restartScheduled :=
    (((Runs.refl _).next (.start 0) ⟨trivial, fun hc => by cases hc⟩ rfl).next .drain
      ⟨trivial, fun hc => by cases hc⟩ rfl).next (.tick 0) ⟨trivial, fun _ hdue => absurd hdue.1 (by decide +kernel)⟩ rfl
  exact (hscheduled.next (.tick 0) ⟨trivial, fun _ hdue => absurd hdue.2.2 (by decide +kernel)⟩ rfl).next (.tick 0)
    ⟨trivial, fun _ _ => hroom⟩ rfl

end EmblaOs
