/-
The counter of restarts in a row over whole runs. Giving up leaves it one above the limit, and a
start by hand clears the mark of the given-up service but not the counter; so the next instance that
fails early is given up at once and the counter goes on growing.
-/
import EmblaOs.Service.Supervision

namespace EmblaOs

open Lib

/-- A start of the stopped, given-up `s` with room for its process. -/
def CallRecord.StartsGivenUp (s : ServicePtr) (c : CallRecord) : Prop :=
  c.call = .start ∧ c.service = s ∧ c.before.state = .stopped ∧ c.embla.Spawnable ∧ c.before.permanentlyFailed = true

namespace World

/-! ## The tick after an end -/

/-- The instance `p` of `s` has ended, nobody asked it to stop, and the policy wants another. -/
structure Ends (w : World) (s : ServicePtr) (p : ProcessPtr) : Prop where
  pending : (w.service s).restartPending = false
  process : (w.service s).process = some p
  dead : (w.embla.process p).state = .terminated
  unasked : (w.service s).stopRequested = false
  wants : (w.service s).WantsRestart (w.embla.process p)

variable {s : ServicePtr} {p : ProcessPtr} {w w' : World} {limit : Int}

/-- What the tick does with such an end: it counts it and gives up or schedules. -/
theorem Ends.tick (h : w.Ends s p) (hinv : w.Inv) :
    (serviceTick s w).1 =
      (if ((w.service s).reaped (w.embla.process p)).nextRestartCount w.embla.host.clock.head >
        (w.service s).maxConsecutiveRestarts then .gaveUp else .reapedRestartScheduled) ∧
    (serviceTick s w).2.service s =
      ((w.service s).reaped (w.embla.process p)).rescheduled w.embla.host.clock.head := by
  obtain ⟨hone, hrec, hhost⟩ := hinv.reap_dead h.process h.dead
  obtain ⟨r, v, hr, hv, hout⟩ := serviceTick_ways s w
  rw [hr, hv]
  cases hout with
  | waiting hp => rw [h.pending] at hp; cases hp
  | due hp => rw [h.pending] at hp; cases hp
  | idle _ hle => rw [hone] at hle; exact absurd hle (by decide)
  | stopHonoured _ _ hs =>
    rw [hrec, show ((w.service s).reaped (w.embla.process p)).stopRequested = _ from h.unasked] at hs
    cases hs
  | noRestart _ _ _ hn =>
    rw [hrec, h.wants.shouldRestart] at hn
    cases hn
  | restart _ _ hs _ =>
    rw [serviceScheduleRestart_eq, hrec, hhost]
    refine ⟨rfl, ?_⟩
    rw [service_modifyService_self, service_withEmbla, hrec]

end World

/-! ## The counter -/

namespace Service

theorem nextRestartCount_eq (now : ℚ) (service : Service) :
    service.nextRestartCount now =
      (if now - service.lastStartTime ≥ service.restartStabilityThresholdSeconds then 0
        else service.consecutiveRestartCount) + 1 := by
  unfold nextRestartCount restabilised
  split <;> rfl

theorem rescheduled_count (now : ℚ) (service : Service) :
    (service.rescheduled now).consecutiveRestartCount = service.nextRestartCount now := by
  unfold rescheduled
  split <;> rfl

theorem rescheduled_max (now : ℚ) (service : Service) :
    (service.rescheduled now).maxConsecutiveRestarts = service.maxConsecutiveRestarts := by
  unfold rescheduled
  split <;> rfl

end Service

namespace World

variable {s : ServicePtr} {p : ProcessPtr} {w w' : World} {limit : Int}

/-- What links the counter of `s` to the limit and to the starts so far. -/
structure Counted (limit : Int) (s : ServicePtr) (w : World) : Prop where
  supervised : w.Supervised s
  fixed : (w.service s).maxConsecutiveRestarts = limit
  failed : (w.service s).permanentlyFailed = true → limit < (w.service s).consecutiveRestartCount
  bound : (∀ c ∈ w.calls, ¬ c.StartsGivenUp s) → (w.service s).consecutiveRestartCount ≤ limit ∨
    ((w.service s).consecutiveRestartCount = limit + 1 ∧ (w.service s).permanentlyFailed = true)
  since : (w.service s).state = .running → ∃ c, w.instanceStart s = some c ∧
    (w.service s).consecutiveRestartCount = c.before.consecutiveRestartCount ∧
    (c.before.permanentlyFailed = true → limit < c.before.consecutiveRestartCount) ∧
    c.before.state = .stopped ∧ c.embla.Spawnable

theorem Counted.fresh (h : w.Fresh) (s : ServicePtr) (hlimit : 0 ≤ (w.service s).maxConsecutiveRestarts) :
    w.Counted (w.service s).maxConsecutiveRestarts s := by
  refine ⟨.fresh h s, rfl, fun hc => ?_, fun _ => .inl ?_, fun hc => ?_⟩
  · rw [(h.services s).permanentlyFailed] at hc
    cases hc
  · rw [(h.services s).consecutiveRestartCount]
    exact hlimit
  · rw [(h.services s).state] at hc
    cases hc

/-- A call that starts no instance of `s` and leaves the counter, the limit and the mark alone. -/
theorem Counted.keep (h : w.Counted limit s) (hsup : w'.Supervised s)
    (hlimit : (w'.service s).maxConsecutiveRestarts = (w.service s).maxConsecutiveRestarts)
    (hcount : (w'.service s).consecutiveRestartCount = (w.service s).consecutiveRestartCount)
    (hfailed : (w'.service s).permanentlyFailed = (w.service s).permanentlyFailed)
    (hstate : (w'.service s).state = .running → (w.service s).state = .running)
    (hcalls : w'.calls = w.calls ∨ ∃ c, c.startsInstance s = false ∧ w'.calls = c :: w.calls) :
    w'.Counted limit s := by
  refine ⟨hsup, hlimit.trans h.fixed, by rw [hfailed, hcount]; exact h.failed, fun hno => ?_, fun hrun => ?_⟩
  · rw [hcount, hfailed]
    apply h.bound
    intro c hc
    exact hno c (mem_calls_skip hcalls hc)
  · obtain ⟨c, hc, heq, hgiven⟩ := h.since (hstate hrun)
    exact ⟨c, (instanceStart_skip hcalls).trans hc, hcount.trans heq, hgiven⟩

/-- The same for a call that leaves the whole record alone. -/
theorem Counted.skip (h : w.Counted limit s) (hsup : w'.Supervised s) (hrec : w'.service s = w.service s)
    (hcalls : w'.calls = w.calls ∨ ∃ c, c.startsInstance s = false ∧ w'.calls = c :: w.calls) : w'.Counted limit s :=
  h.keep hsup (by rw [hrec]) (by rw [hrec]) (by rw [hrec]) (by rw [hrec]; exact id) hcalls

theorem Counted.serviceStart (h : w.Counted limit s) (t : ServicePtr) : (serviceStart t w).2.Counted limit s := by
  have hsup := h.supervised.serviceStart t
  by_cases hts : s = t
  · subst hts
    rcases h.supervised.inv.start s with ⟨-, hx⟩ | ⟨-, -, e, -, -, -, -, hx⟩ | ⟨hst, hsp, e, -, hx⟩ <;> rw [hx] at hsup ⊢
    · exact h.skip hsup rfl (.inr ⟨_, by simp [CallRecord.startsInstance], rfl⟩)
    · exact h.skip hsup rfl (.inr ⟨_, by simp [CallRecord.startsInstance], rfl⟩)
    · refine ⟨hsup, ?_, ?_, fun hno => .inl ?_, fun _ => ⟨⟨.start, s, w.service s, w.embla, 0⟩, ?_, ?_, h.failed, hst, hsp⟩⟩
      · simpa [Service.launched] using h.fixed
      · simp [Service.launched]
      · -- the mark was not set, so the counter was not above the limit
        have hbefore := hno ⟨.start, s, w.service s, w.embla, 0⟩ (by simp)
        have hunmarked : (w.service s).permanentlyFailed ≠ true := fun hc => hbefore ⟨rfl, rfl, hst, hsp, hc⟩
        have hcount := h.bound fun c hc => hno c (by simp [hc])
        simpa [Service.launched, hunmarked] using hcount
      · simp [instanceStart, CallRecord.startsInstance]
      · simp [Service.launched]
  · refine h.skip hsup (serviceStart_other hts w) (.inr ⟨_, ?_, serviceStart_calls t w⟩)
    simp [CallRecord.startsInstance, Ne.symm hts]

theorem Counted.serviceStop (h : w.Counted limit s) (t : ServicePtr) : (serviceStop t w).2.Counted limit s := by
  have hsup := h.supervised.serviceStop t
  have hcalls : ∃ c : CallRecord, c.startsInstance s = false ∧ (EmblaOs.serviceStop t w).2.calls = c :: w.calls :=
    ⟨_, by simp [CallRecord.startsInstance], serviceStop_calls t w⟩
  by_cases hts : s = t
  · subst hts
    rcases serviceStop_self s w with ⟨-, hrec⟩ | ⟨hrun, hrec⟩
    · exact h.skip hsup hrec (.inr hcalls)
    · exact h.keep hsup (by rw [hrec]; rfl) (by rw [hrec]; rfl) (by rw [hrec]; rfl) (fun _ => hrun) (.inr hcalls)
  · exact h.skip hsup (serviceStop_other hts w) (.inr hcalls)

theorem Counted.serviceKill (h : w.Counted limit s) (t : ServicePtr) : (serviceKill t w).2.Counted limit s :=
  h.skip (h.supervised.serviceKill t) (serviceKill_service t s w)
    (.inr ⟨_, by simp [CallRecord.startsInstance], serviceKill_calls t w⟩)

theorem Counted.serviceReap (h : w.Counted limit s) (t : ServicePtr) : (serviceReap t w).2.Counted limit s := by
  have hsup := h.supervised.serviceReap t
  have hcalls : ∃ c : CallRecord, c.startsInstance s = false ∧ (EmblaOs.serviceReap t w).2.calls = c :: w.calls :=
    ⟨_, by simp [CallRecord.startsInstance], serviceReap_calls t w⟩
  by_cases hts : s = t
  · subst hts
    rcases h.supervised.reaped with ⟨-, hrec⟩ | ⟨-, hrun, p, -, -, hrec⟩
    · exact h.skip hsup hrec (.inr hcalls)
    · exact h.keep hsup (by rw [hrec]; rfl) (by rw [hrec]; rfl) (by rw [hrec]; rfl) (fun _ => hrun) (.inr hcalls)
  · exact h.skip hsup (serviceReap_other hts w) (.inr hcalls)

theorem Counted.restartCleared (h : w.Counted limit s) : (w.restartCleared s).Counted limit s := by
  have hrec := w.service_restartCleared s
  exact h.keep h.supervised.restartCleared (by rw [hrec]; rfl) (by rw [hrec]; rfl) (by rw [hrec]; rfl)
    (by rw [hrec]; exact id) (.inl rfl)

/-- The tick that counts a restart adds one to a counter that was not above the limit. -/
theorem Counted.rescheduled (h : w.Counted limit s) (hlimit : 0 ≤ limit) (hsup : w'.Supervised s)
    (hrun : (w.service s).state = .running) {process : Process} {now : ℚ}
    (hrec : w'.service s = ((w.service s).reaped process).rescheduled now)
    (hcalls : ∃ c : CallRecord, c.startsInstance s = false ∧ w'.calls = c :: w.calls) : w'.Counted limit s := by
  have hlive := h.supervised.live hrun
  have hfixed : ((w.service s).reaped process).maxConsecutiveRestarts = limit := h.fixed
  have hstate : (w'.service s).state = .stopped := by
    rw [hrec, (Service.rescheduled_kept _ _).1]
    rfl
  have hnext := ((w.service s).reaped process).nextRestartCount_eq now
  have hold : ((w.service s).reaped process).consecutiveRestartCount = (w.service s).consecutiveRestartCount := rfl
  rw [hold] at hnext
  have hcount : (w'.service s).consecutiveRestartCount = ((w.service s).reaped process).nextRestartCount now := by
    rw [hrec]
    exact Service.rescheduled_count ..
  refine ⟨hsup, ?_, fun hf => ?_, fun hno => ?_, fun hc => by rw [hstate] at hc; cases hc⟩
  · rw [hrec, Service.rescheduled_max]
    exact hfixed
  · rw [hcount]
    by_contra hle
    rw [hrec, Service.rescheduled_pending (by rw [hfixed]; exact hle)] at hf
    change (w.service s).permanentlyFailed = true at hf
    rw [hlive] at hf
    cases hf
  · obtain ⟨d, -, heq⟩ := hcalls
    have hbound := h.bound fun c hc => hno c (by rw [heq]; exact List.mem_cons_of_mem _ hc)
    rw [hlive] at hbound
    have hle : (w.service s).consecutiveRestartCount ≤ limit := hbound.resolve_right fun hc => by cases hc.2
    -- one more failure stays in the budget, or is the one that gives up
    by_cases hgive : ((w.service s).reaped process).nextRestartCount now > limit
    · right
      constructor
      · rw [hcount]
        split at hnext <;> omega
      · rw [hrec, Service.rescheduled_gaveUp (by rw [hfixed]; exact hgive)]
    · left
      rw [hcount]
      omega

theorem Counted.serviceTick (h : w.Counted limit s) (hlimit : 0 ≤ limit) (t : ServicePtr) :
    (serviceTick t w).2.Counted limit s := by
  have hsup := h.supervised.step (.tick t w)
  by_cases hts : s = t
  swap
  · refine h.skip hsup (serviceTick_other hts w) ((serviceTick_calls t w).imp_right ?_)
    rintro ⟨c, hc, hcalls⟩
    exact ⟨c, by simp [CallRecord.startsInstance, hc, Ne.symm hts], hcalls⟩
  subst hts
  obtain ⟨r, v, -, hv, hout⟩ := serviceTick_ways s w
  rw [hv] at hsup ⊢
  have hreap := h.serviceReap s
  cases hout with
  | waiting => exact h.skip hsup rfl (.inl rfl)
  | due => exact h.restartCleared.serviceStart s
  | idle => exact hreap
  | noRestart => exact hreap
  | stopHonoured _ hone =>
    have hrec := ((EmblaOs.serviceReap s w).2).service_modifyService_self s fun r => serviceSetStopRequested r false
    refine hreap.keep hsup ?_ ?_ ?_ ?_ (.inl rfl)
    · rw [hrec]; rfl
    · rw [hrec]; rfl
    · rw [hrec]; rfl
    · rw [hrec]; exact id
  | restart _ hone =>
    rcases h.supervised.reaped with ⟨hzero, -⟩ | ⟨-, hrun, p, -, -, hrec⟩
    · rw [hzero] at hone
      cases hone
    · rw [serviceScheduleRestart_eq] at hsup ⊢
      have hself : (((EmblaOs.serviceReap s w).2.withEmbla (EmblaOs.serviceReap s w).2.embla.ticked).modifyService s
          (Service.rescheduled (EmblaOs.serviceReap s w).2.embla.host.clock.head)).service s =
            ((w.service s).reaped (w.embla.process p)).rescheduled (EmblaOs.serviceReap s w).2.embla.host.clock.head := by
        rw [service_modifyService_self, service_withEmbla, hrec]
      exact h.rescheduled hlimit hsup hrun hself ⟨_, by simp [CallRecord.startsInstance], serviceReap_calls s w⟩

theorem Counted.step (h : w.Counted limit s) (hlimit : 0 ≤ limit) (hs : Step w w') : w'.Counted limit s := by
  have hsup := h.supervised.step hs
  cases hs with
  | start t => exact h.serviceStart t
  | stop t => exact h.serviceStop t
  | kill t => exact h.serviceKill t
  | reap t => exact h.serviceReap t
  | tick t => exact h.serviceTick hlimit t
  | drain => exact h.skip hsup rfl (.inl rfl)
  | aged _ => exact h.skip hsup rfl (.inl rfl)

theorem Counted.run (h₀ : w.Fresh) (s : ServicePtr) (hlimit : 0 ≤ (w.service s).maxConsecutiveRestarts) (hrun : Run w w') :
    w'.Counted (w.service s).maxConsecutiveRestarts s :=
  hrun.invariant (fun _ _ h hs => h.step hlimit hs) (.fresh h₀ s hlimit)

end World

end EmblaOs
