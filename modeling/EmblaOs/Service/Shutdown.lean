/-
What `service_registry_stop_all` leaves behind. A service is a zombie while it is marked running
although its process is known to be dead. Zombies come from the drains a wait makes; only the next
round of a wait for that very service clears one, since neither `service_stop` nor `service_kill`
will signal a dead process. So the call ends clean exactly when it starts clean and every death it
sees is that of the service it waits for, with another round of the wait to come.
-/
import EmblaOs.Service.Invariant

namespace EmblaOs

open Lib

namespace World

/-- `SERVICE_RUNNING` with a process in `PROCESS_TERMINATED`. -/
def Zombie (w : World) (t : ServicePtr) : Prop :=
  (w.service t).state = .running ∧ ∃ p, (w.service t).process = some p ∧ (w.embla.process p).state = .terminated

/-- The next thing the host reports is the death of the running service `t`. -/
def DyingNext (w : World) (t : ServicePtr) : Prop :=
  (w.service t).state = .running ∧ ∃ p, (w.service t).process = some p ∧ w.embla.DyingNext p

end World

/-! ## The drains of a call -/

/-- A drain of a wait for `service` until `deadline`, and the world it is made in. -/
structure Drain where
  service : ServicePtr
  deadline : ℚ
  world : World

/-- The drains of `serviceOrchestratorWaitForTermination`. -/
def waitDrains (service : ServicePtr) (deadline : ℚ) : Nat → World → List Drain
  | 0, _ => []
  | fuel + 1, w =>
    let (now, w) := w.monotonicNow
    if now < deadline then
      let (reapResult, w) := serviceReap service w
      if reapResult = 1 ∨ reapResult < 0 then []
      else
        let (drainResult, w') := w.drainOneEvent
        ⟨service, deadline, w⟩ :: if drainResult < 0 then [] else waitDrains service deadline fuel w'
    else []

/-- The drains of `stopAllEscalate`. -/
def escalateDrains (service : ServicePtr) (fuel : Nat) (w : World) : List Drain :=
  let (killed, w) := serviceKill service w
  if killed = 0 then
    let (now, w) := w.monotonicNow
    waitDrains service (now + serviceOrchestratorKillWaitSeconds) fuel w
  else []

/-- The drains of `stopAllOne`. -/
def stopOneDrains (service : ServicePtr) (timeoutSeconds : ℚ) (fuel : Nat) (w : World) : List Drain :=
  if (w.service service).state ≠ .running then []
  else
    let (result, w) := serviceStop service w
    if result ≠ 0 then []
    else
      let (now, w) := w.monotonicNow
      waitDrains service (now + timeoutSeconds) fuel w ++
        match serviceOrchestratorWaitForTermination service (now + timeoutSeconds) fuel w with
        | none => []
        | some (terminated, w) => if terminated ≠ 1 then escalateDrains service fuel w else []

/-- The drains of `stopAllLoop`. -/
def stopLoopDrains (timeoutSeconds : ℚ) (fuel : Nat) : List ServicePtr → World → List Drain
  | [], _ => []
  | service :: rest, w =>
    stopOneDrains service timeoutSeconds fuel w ++
      match stopAllOne service timeoutSeconds fuel w with
      | none => []
      | some (_, w) => stopLoopDrains timeoutSeconds fuel rest w

/-- The drains `serviceRegistryStopAll` makes, first to last. -/
def stopAllDrains (registry : ServiceRegistry) (timeoutSeconds : ℚ) (fuel : Nat) (w : World) : List Drain :=
  if serviceRegistryCount registry = 0 then []
  else
    match w.startOrder registry with
    | some (some order, w) => stopLoopDrains timeoutSeconds fuel order.reverse w
    | _ => []

/-- A death of `t` that this drain takes in is one that the wait it belongs to will act on: the wait
is for `t` and its next look at the clock is before the deadline. -/
def Drain.Timely (d : Drain) (t : ServicePtr) : Prop :=
  d.world.DyingNext t → d.service = t ∧ d.world.embla.host.clock.head < d.deadline

/-! ## Zombies through the elementary calls -/

namespace World

variable {w w' : World} {s t : ServicePtr}

theorem zombie_congr (hs : (w'.service t).state = (w.service t).state)
    (hp : (w'.service t).process = (w.service t).process) (hheap : w'.embla.processHeap = w.embla.processHeap) :
    w'.Zombie t ↔ w.Zombie t := by
  unfold Zombie Embla.process
  rw [hs, hp, hheap]

theorem zombie_serviceStop (s t : ServicePtr) (w : World) : (serviceStop s w).2.Zombie t ↔ w.Zombie t := by
  have hheap : (serviceStop s w).2.embla.processHeap = w.embla.processHeap := by
    rcases serviceStop_cases s w with ⟨-, hx⟩ | ⟨-, p, -, hx⟩ <;> rw [hx]
    · rfl
    · obtain ⟨host, ho⟩ := emblaTerminate_host p w.embla
      simp only [embla_logged, embla_withEmbla]
      rw [ho]
  rcases eq_or_ne t s with rfl | hne
  · rcases serviceStop_self t w with ⟨-, hx⟩ | ⟨-, hx⟩
    · exact zombie_congr (by rw [hx]) (by rw [hx]) hheap
    · exact zombie_congr (by rw [hx]; rfl) (by rw [hx]; rfl) hheap
  · exact zombie_congr (by rw [serviceStop_other hne]) (by rw [serviceStop_other hne]) hheap

theorem zombie_serviceKill (s t : ServicePtr) (w : World) : (serviceKill s w).2.Zombie t ↔ w.Zombie t := by
  refine zombie_congr (by rw [serviceKill_service]) (by rw [serviceKill_service]) ?_
  rcases serviceKill_cases s w with ⟨-, hx⟩ | ⟨-, p, -, hx⟩ <;> rw [hx]
  · rfl
  · obtain ⟨host, ho⟩ := emblaKill_host p w.embla
    simp only [embla_logged, embla_withEmbla]
    rw [ho]

theorem Inv.zombie_serviceReap (h : w.Inv) (s t : ServicePtr) :
    (EmblaOs.serviceReap s w).2.Zombie t ↔ w.Zombie t ∧ t ≠ s := by
  rcases h.reap s with ⟨hx, hno⟩ | ⟨p, e, -, -, -, hreaped, -, hx⟩ <;> rw [hx]
  · have hkeep : (World.logged .reap s w 0 w).Zombie t ↔ w.Zombie t := zombie_congr rfl rfl rfl
    rw [hkeep]
    refine ⟨fun hz => ⟨hz, ?_⟩, fun hz => hz.1⟩
    rintro rfl
    obtain ⟨hst, p, hp, hdead⟩ := hz
    rcases hno with hno | ⟨q, hq, hlive⟩
    · exact hno hst
    · rw [hp] at hq
      cases hq
      exact hlive hdead
  · rcases eq_or_ne t s with rfl | hne
    · refine ⟨fun hz => ?_, fun hz => absurd rfl hz.2⟩
      have hst : ((w.modifyService t (Service.reaped (w.embla.process p))).service t).state = .running := hz.1
      rw [service_modifyService_self] at hst
      cases hst
    · have hother := service_modifyService_of_ne w (Service.reaped (w.embla.process p)) hne
      rw [and_iff_left hne]
      exact zombie_congr (congrArg Service.state hother) (congrArg Service.process hother) hreaped.heap

/-- A drain turns the service whose death it takes in into a zombie, and no other. -/
theorem Inv.zombie_drain (h : w.Inv) (t : ServicePtr) : w.drainOneEvent.2.Zombie t ↔ w.Zombie t ∨ w.DyingNext t := by
  have hx : w.drainOneEvent.2 = w.withEmbla (serviceRegistryDrainOneEvent w.embla).2 := rfl
  rcases serviceRegistryDrainOneEvent_cases w.embla with ⟨hnone, he⟩ | ⟨event, p, hdying, hdeath, he⟩
  · rw [hx, he]
    have hkeep : (w.withEmbla w.embla.polled).Zombie t ↔ w.Zombie t := zombie_congr rfl rfl rfl
    rw [hkeep]
    refine ⟨.inl, fun hz => hz.elim id ?_⟩
    rintro ⟨-, q, -, hq⟩
    exact absurd hq (hnone q)
  · rw [hx, he]
    -- one drain ends at most the process of one service
    have hstate : ∀ q, (w.service t).process = some q →
        (((w.embla.polled.modifyProcess p (drainRecord w.embla.host.platform event)).process q).state = .terminated ↔
          (w.embla.process q).state = .terminated ∨ q = p) := by
      intro q hq
      rcases eq_or_ne q p with rfl | hne
      · rw [Embla.process_modifyProcess_self]
        have hstarted := h.embla.started q (h.tracked hq).2
        simp only [or_true, iff_true]
        exact drainRecord_state_death _ hdeath hstarted
      · rw [Embla.process_modifyProcess_of_ne _ _ hne]
        simp only [hne, or_false]
        rfl
    constructor
    · rintro ⟨hst, q, hq, hdead⟩
      rcases (hstate q hq).1 hdead with hdead | rfl
      · exact .inl ⟨hst, q, hq, hdead⟩
      · exact .inr ⟨hst, q, hq, hdying⟩
    · rintro (⟨hst, q, hq, hdead⟩ | ⟨hst, q, hq, hd⟩)
      · exact ⟨hst, q, hq, (hstate q hq).2 (.inl hdead)⟩
      · exact ⟨hst, q, hq, (hstate q hq).2 (.inr (hd.unique hdying))⟩

/-- A drain that fails took no death in. -/
theorem not_dyingNext_of_drain_neg (hneg : w.drainOneEvent.1 < 0) (t : ServicePtr) : ¬ w.DyingNext t := by
  rintro ⟨-, p, -, hd⟩
  rcases serviceRegistryDrainOneEvent_cases w.embla with ⟨hnone, -⟩ | ⟨event, p, -, -, he⟩
  · exact hnone p hd
  · have hone : w.drainOneEvent.1 = 1 := congrArg Prod.fst he
    omega

/-- A dead process is not signalled. -/
theorem not_zombie_of_stopped (h : (serviceStop s w).1 = 0) : ¬ w.Zombie s := by
  rintro ⟨hst, p, hp, hdead⟩
  rcases serviceStop_cases s w with ⟨-, hx⟩ | ⟨-, q, hq, hx⟩ <;> rw [hx] at h
  · cases h
  · rw [hp] at hq
    cases hq
    unfold emblaTerminate at h
    rw [if_pos hdead] at h
    cases h

theorem not_zombie_of_killed (h : (serviceKill s w).1 = 0) : ¬ w.Zombie s := by
  rintro ⟨hst, p, hp, hdead⟩
  rcases serviceKill_cases s w with ⟨-, hx⟩ | ⟨-, q, hq, hx⟩ <;> rw [hx] at h
  · cases h
  · rw [hp] at hq
    cases hq
    unfold emblaKill at h
    rw [if_pos hdead] at h
    cases h

/-- The service has ended: it is stopped, or it is a zombie. -/
def Ended (w : World) (t : ServicePtr) : Prop := (w.service t).state = .stopped ∨ w.Zombie t

/-- What leaves the records of the services alone, a reap or a drain apart, keeps an ended service ended. -/
theorem Ended.congr (h : w.Ended t) (hs : (w'.service t).state = (w.service t).state)
    (hz : w.Zombie t → w'.Zombie t) : w'.Ended t := by
  rcases h with hst | hzombie
  · exact .inl (hs.trans hst)
  · exact .inr (hz hzombie)

theorem Ended.serviceStop (h : w.Ended t) (s : ServicePtr) : (serviceStop s w).2.Ended t := by
  refine h.congr ?_ (zombie_serviceStop s t w).2
  rcases eq_or_ne t s with rfl | hne
  · rcases serviceStop_self t w with ⟨-, hx⟩ | ⟨-, hx⟩
    · rw [hx]
    · rw [hx]
      rfl
  · rw [serviceStop_other hne]

theorem Ended.serviceKill (h : w.Ended t) (s : ServicePtr) : (serviceKill s w).2.Ended t :=
  h.congr (by rw [serviceKill_service]) (zombie_serviceKill s t w).2

theorem Ended.serviceReap (h : w.Ended t) (hinv : w.Inv) (s : ServicePtr) : (serviceReap s w).2.Ended t := by
  rcases eq_or_ne t s with rfl | hne
  · rcases hinv.reap t with ⟨hx, hno⟩ | ⟨p, e, -, -, -, -, -, hx⟩ <;> rw [hx]
    · exact h.congr rfl (zombie_congr rfl rfl rfl).2
    · left
      have hself := w.service_modifyService_self t (Service.reaped (w.embla.process p))
      exact congrArg Service.state hself
  · exact h.congr (by rw [serviceReap_other hne]) fun hz => (hinv.zombie_serviceReap s t).2 ⟨hz, hne⟩

theorem Inv.ended_drain (h : w.Inv) (ht : w.Ended t ∨ w.DyingNext t) : w.drainOneEvent.2.Ended t := by
  rcases ht with ht | ht
  · exact ht.congr rfl fun hz => (h.zombie_drain t).2 (.inl hz)
  · exact .inr ((h.zombie_drain t).2 (.inr ht))

end World

/-! ## The waits -/

theorem waitDrains_succ (s : ServicePtr) (deadline : ℚ) (fuel : Nat) (w : World) :
    waitDrains s deadline (fuel + 1) w =
      if w.monotonicNow.1 < deadline then
        if (serviceReap s w.monotonicNow.2).1 = 1 ∨ (serviceReap s w.monotonicNow.2).1 < 0 then []
        else ⟨s, deadline, (serviceReap s w.monotonicNow.2).2⟩ ::
          if (serviceReap s w.monotonicNow.2).2.drainOneEvent.1 < 0 then []
          else waitDrains s deadline fuel (serviceReap s w.monotonicNow.2).2.drainOneEvent.2
      else [] := rfl

namespace World

/-- A wait for `s` leaves no zombie `t` exactly when a zombie it found is `s`, with a round left to
reap it, and each death it drains meets the same. -/
theorem Inv.zombie_wait (s t : ServicePtr) (deadline : ℚ) :
    ∀ (fuel : Nat) (w : World) (result : Int × World), w.Inv →
      serviceOrchestratorWaitForTermination s deadline fuel w = some result →
      (¬ result.2.Zombie t ↔ (w.Zombie t → s = t ∧ w.embla.host.clock.head < deadline) ∧
        ∀ d ∈ waitDrains s deadline fuel w, d.Timely t)
  | 0, _, _, _, hx => by cases hx
  | fuel + 1, w, result, h, hx => by
    have hclockInv : w.monotonicNow.2.Inv := h.onlyHost ⟨_, rfl⟩
    have hreapInv := hclockInv.serviceReap s
    have hclock : w.monotonicNow.2.Zombie t ↔ w.Zombie t := zombie_congr rfl rfl rfl
    have hreap : (EmblaOs.serviceReap s w.monotonicNow.2).2.Zombie t ↔ w.Zombie t ∧ t ≠ s := by
      rw [hclockInv.zombie_serviceReap s t, hclock]
    have hdrain := hreapInv.zombie_drain t
    have hcleared : ¬ (w.Zombie t ∧ t ≠ s) ↔ (w.Zombie t → s = t) := by rw [ne_comm, not_and_not_right]
    obtain ⟨outcome, w', hround, hw⟩ := waitForTermination_round s deadline w
    rw [hw] at hx
    rw [waitDrains_succ]
    cases hround with
    | late hlate =>
      cases hx
      have hlate' : ¬ w.embla.host.clock.head < deadline := not_lt.2 hlate
      rw [if_neg (not_lt.2 hlate), hclock]
      simp [hlate']
    | reaped hearly hone =>
      cases hx
      have hearly' : w.embla.host.clock.head < deadline := hearly
      rw [if_pos hearly, if_pos (.inl hone), hreap, hcleared]
      simp only [hearly', and_true, List.not_mem_nil, false_implies, implies_true]
    | reapFailed hearly hneg =>
      cases hx
      have hearly' : w.embla.host.clock.head < deadline := hearly
      rw [if_pos hearly, if_pos (.inr hneg), hreap, hcleared]
      simp only [hearly', and_true, List.not_mem_nil, false_implies, implies_true]
    | pollFailed hearly halive herr =>
      cases hx
      have hearly' : w.embla.host.clock.head < deadline := hearly
      have hnone := not_dyingNext_of_drain_neg herr t
      rw [if_pos hearly, if_neg halive, if_pos herr, hdrain, hreap, or_iff_left hnone, hcleared]
      simp only [List.mem_singleton, forall_eq, Drain.Timely, hnone, false_implies, and_true, hearly']
    | again hearly halive hok =>
      have hearly' : w.embla.host.clock.head < deadline := hearly
      rw [Inv.zombie_wait s t deadline fuel _ result hreapInv.drainOneEvent hx, if_pos hearly, if_neg halive, if_neg hok,
        hdrain, hreap]
      -- the clock is not read between the drain and the next round
      have hsame : (EmblaOs.serviceReap s w.monotonicNow.2).2.drainOneEvent.2.embla.host.clock =
          (EmblaOs.serviceReap s w.monotonicNow.2).2.embla.host.clock := drain_clock _
      rw [hsame]
      simp only [List.mem_cons, forall_eq_or_imp, hearly', and_true]
      rw [← and_assoc, and_congr_left_iff]
      intro _
      unfold Drain.Timely
      constructor
      · intro hall
        refine ⟨fun hz => ?_, fun hdying => hall (.inr hdying)⟩
        by_contra hne
        exact hne (hall (.inl ⟨hz, fun heq => hne heq.symm⟩)).1
      · rintro ⟨hz, hdying⟩ (⟨hzombie, hne⟩ | hd)
        · exact absurd (hz hzombie).symm hne
        · exact hdying hd

/-- A service that had ended, or whose death is drained, has ended when the wait returns. -/
theorem Inv.ended_wait (s t : ServicePtr) (deadline : ℚ) :
    ∀ (fuel : Nat) (w : World) (result : Int × World), w.Inv →
      serviceOrchestratorWaitForTermination s deadline fuel w = some result →
      (w.Ended t ∨ ∃ d ∈ waitDrains s deadline fuel w, d.world.DyingNext t) → result.2.Ended t
  | 0, _, _, _, hx, _ => by cases hx
  | fuel + 1, w, result, h, hx, ht => by
    have hclockInv : w.monotonicNow.2.Inv := h.onlyHost ⟨_, rfl⟩
    have hreapInv := hclockInv.serviceReap s
    have hclock : w.Ended t → w.monotonicNow.2.Ended t := fun hended => hended.congr rfl (zombie_congr rfl rfl rfl).2
    have hreap : w.Ended t → (EmblaOs.serviceReap s w.monotonicNow.2).2.Ended t := fun hended =>
      (hclock hended).serviceReap hclockInv s
    obtain ⟨outcome, w', hround, hw⟩ := waitForTermination_round s deadline w
    rw [hw] at hx
    rw [waitDrains_succ] at ht
    cases hround with
    | late hlate =>
      cases hx
      rw [if_neg (not_lt.2 hlate)] at ht
      obtain hended | ⟨d, hin, -⟩ := ht
      · exact hclock hended
      · cases hin
    | reaped hearly hone =>
      cases hx
      rw [if_pos hearly, if_pos (.inl hone)] at ht
      obtain hended | ⟨d, hin, -⟩ := ht
      · exact hreap hended
      · cases hin
    | reapFailed hearly hneg =>
      cases hx
      rw [if_pos hearly, if_pos (.inr hneg)] at ht
      obtain hended | ⟨d, hin, -⟩ := ht
      · exact hreap hended
      · cases hin
    | pollFailed hearly halive herr =>
      cases hx
      rw [if_pos hearly, if_neg halive, if_pos herr] at ht
      obtain hended | ⟨d, hin, hdying⟩ := ht
      · exact hreapInv.ended_drain (.inl (hreap hended))
      · rw [List.mem_singleton.1 hin] at hdying
        exact absurd hdying (not_dyingNext_of_drain_neg herr t)
    | again hearly halive hok =>
      rw [if_pos hearly, if_neg halive, if_neg hok] at ht
      refine Inv.ended_wait s t deadline fuel _ result hreapInv.drainOneEvent hx ?_
      obtain hended | ⟨d, hin, hdying⟩ := ht
      · exact .inl (hreapInv.ended_drain (.inl (hreap hended)))
      · rcases List.mem_cons.1 hin with rfl | hin
        · exact .inl (hreapInv.ended_drain (.inr hdying))
        · exact .inr ⟨d, hin, hdying⟩

end World

/-! ## The whole call -/

/-- Between `w` and `w'` the events of `drains` were taken in: `t` is no zombie in the end exactly when
it was none before and its deaths were timely, and once it has ended it stays so. -/
structure World.Accounted (t : ServicePtr) (w : World) (drains : List Drain) (w' : World) : Prop where
  inv : w'.Inv
  zombie : ¬ w'.Zombie t ↔ ¬ w.Zombie t ∧ ∀ d ∈ drains, d.Timely t
  ended : (w.Ended t ∨ ∃ d ∈ drains, d.world.DyingNext t) → w'.Ended t

namespace World

variable {w w' w'' : World} {s t : ServicePtr}

/-- A stretch without drains that does nothing to the services. -/
theorem Accounted.quiet (h : w'.Inv) (hz : w'.Zombie t ↔ w.Zombie t) (he : w.Ended t → w'.Ended t) :
    Accounted t w [] w' := by
  refine ⟨h, by simp [hz], ?_⟩
  rintro (hended | ⟨d, hin, -⟩)
  · exact he hended
  · cases hin

theorem Accounted.trans {ds ds' : List Drain} (h : Accounted t w ds w') (h' : Accounted t w' ds' w'') :
    Accounted t w (ds ++ ds') w'' := by
  refine ⟨h'.inv, ?_, ?_⟩
  · rw [h'.zombie, h.zombie, and_assoc]
    simp only [List.mem_append, or_imp, forall_and]
  · rintro (hended | ⟨d, hin, hdying⟩)
    · exact h'.ended (.inl (h.ended (.inl hended)))
    · rcases List.mem_append.1 hin with hin | hin
      · exact h'.ended (.inl (h.ended (.inr ⟨d, hin, hdying⟩)))
      · exact h'.ended (.inr ⟨d, hin, hdying⟩)

theorem Inv.accounted_stop (h : w.Inv) (s t : ServicePtr) : Accounted t w [] (EmblaOs.serviceStop s w).2 :=
  .quiet (h.serviceStop s) (zombie_serviceStop s t w) fun he => he.serviceStop s

theorem Inv.accounted_kill (h : w.Inv) (s t : ServicePtr) : Accounted t w [] (EmblaOs.serviceKill s w).2 :=
  .quiet (h.serviceKill s) (zombie_serviceKill s t w) fun he => he.serviceKill s

theorem Inv.accounted_aged (h : w.Inv) (host : Host) (t : ServicePtr) :
    Accounted t w [] (w.withEmbla { w.embla with host := host }) :=
  .quiet (h.onlyHost ⟨_, rfl⟩) (zombie_congr rfl rfl rfl) fun he => he.congr rfl (zombie_congr rfl rfl rfl).2

/-- A wait that starts on a service that is still alive. -/
theorem Inv.accounted_wait (h : w.Inv) (hs : ¬ w.Zombie s) {deadline : ℚ} {fuel : Nat} {result : Int × World}
    (hx : serviceOrchestratorWaitForTermination s deadline fuel w = some result) (t : ServicePtr) :
    Accounted t w (waitDrains s deadline fuel w) result.2 := by
  refine ⟨h.steps (waitForTermination_steps s deadline fuel w result hx), ?_,
    Inv.ended_wait s t deadline fuel w result h hx⟩
  rw [Inv.zombie_wait s t deadline fuel w result h hx, and_congr_left_iff]
  intro _
  refine ⟨fun hall hz => ?_, fun hno hz => absurd hz hno⟩
  obtain ⟨rfl, -⟩ := hall hz
  exact hs hz

theorem Inv.accounted_escalate (h : w.Inv) {fuel : Nat} {terminated : Int} {result : Int × World}
    (hx : stopAllEscalate s fuel terminated w = some result) (t : ServicePtr) :
    Accounted t w (escalateDrains s fuel w) result.2 := by
  unfold stopAllEscalate at hx
  unfold escalateDrains
  simp only at hx ⊢
  have hkill := h.accounted_kill s t
  split at hx
  · rename_i hzero
    rw [if_pos hzero]
    have hclock := hkill.inv.accounted_aged (EmblaOs.serviceKill s w).2.embla.host.monotonicNow.2 t
    have halive : ¬ (EmblaOs.serviceKill s w).2.monotonicNow.2.Zombie s := fun hz =>
      not_zombie_of_killed hzero ((zombie_serviceKill s s w).1 hz)
    exact (hkill.trans hclock).trans (hclock.inv.accounted_wait halive hx t)
  · rename_i hne
    rw [if_neg hne]
    cases hx
    exact hkill

theorem Inv.accounted_stopOne (h : w.Inv) {timeoutSeconds : ℚ} {fuel : Nat} {result : Int × World}
    (hx : stopAllOne s timeoutSeconds fuel w = some result) (t : ServicePtr) :
    Accounted t w (stopOneDrains s timeoutSeconds fuel w) result.2 := by
  unfold stopAllOne at hx
  unfold stopOneDrains
  simp only at hx ⊢
  have hstop := h.accounted_stop s t
  split at hx
  · rename_i hst
    rw [if_pos hst]
    cases hx
    exact .quiet h Iff.rfl id
  rename_i hst
  rw [if_neg hst]
  split at hx
  · rename_i hfail
    rw [if_pos hfail]
    cases hx
    exact hstop
  rename_i hok
  rw [if_neg hok]
  have hclock := hstop.inv.accounted_aged (EmblaOs.serviceStop s w).2.embla.host.monotonicNow.2 t
  -- what could be signalled had not ended
  have halive : ¬ (EmblaOs.serviceStop s w).2.monotonicNow.2.Zombie s := fun hz =>
    not_zombie_of_stopped (not_not.1 hok) ((zombie_serviceStop s s w).1 hz)
  rcases heq : serviceOrchestratorWaitForTermination s ((EmblaOs.serviceStop s w).2.monotonicNow.1 + timeoutSeconds) fuel
      (EmblaOs.serviceStop s w).2.monotonicNow.2 with _ | ⟨terminated, w₁⟩
  · rw [heq] at hx
    cases hx
  · rw [heq] at hx
    have hwait := (hstop.trans hclock).trans (hclock.inv.accounted_wait halive heq t)
    simp only at hx ⊢
    by_cases hdone : terminated = 1
    · rw [if_neg (not_not.2 hdone)] at hx
      rw [if_neg (not_not.2 hdone), List.append_nil]
      cases hx
      exact hwait
    · rw [if_pos hdone] at hx
      rw [if_pos hdone]
      exact hwait.trans (hwait.inv.accounted_escalate hx t)

theorem Inv.accounted_loop (t : ServicePtr) (timeoutSeconds : ℚ) (fuel : Nat) :
    ∀ (order : List ServicePtr) (stopped : Int) (w : World) (result : Int × World), w.Inv →
      stopAllLoop timeoutSeconds fuel order stopped w = some result →
      Accounted t w (stopLoopDrains timeoutSeconds fuel order w) result.2
  | [], _, _, _, h, hx => by
    cases hx
    exact .quiet h Iff.rfl id
  | s :: rest, stopped, w, result, h, hx => by
    unfold stopAllLoop at hx
    unfold stopLoopDrains
    rcases heq : stopAllOne s timeoutSeconds fuel w with _ | ⟨terminated, w₁⟩
    · rw [heq] at hx
      cases hx
    · rw [heq] at hx
      have hone := h.accounted_stopOne heq t
      exact hone.trans (Inv.accounted_loop t timeoutSeconds fuel rest _ _ result hone.inv hx)

theorem Inv.accounted_stopAll (h : w.Inv) {registry : ServiceRegistry} {timeoutSeconds : ℚ} {fuel : Nat}
    {result : Int × World} (hx : serviceRegistryStopAll registry timeoutSeconds fuel w = some result)
    (t : ServicePtr) : Accounted t w (stopAllDrains registry timeoutSeconds fuel w) result.2 := by
  unfold serviceRegistryStopAll at hx
  unfold stopAllDrains
  split at hx
  · rename_i hempty
    rw [if_pos hempty]
    cases hx
    exact .quiet h Iff.rfl id
  rename_i hsome
  rw [if_neg hsome]
  rcases heq : w.startOrder registry with _ | ⟨_ | order, w₁⟩ <;> rw [heq] at hx
  · cases hx
  · obtain ⟨host, -, rfl⟩ := World.startOrder_aged heq
    cases hx
    exact h.accounted_aged host t
  · obtain ⟨host, -, rfl⟩ := World.startOrder_aged heq
    have haged := h.accounted_aged host t
    exact haged.trans (Inv.accounted_loop t timeoutSeconds fuel _ _ _ result haged.inv hx)

end World

/-- The call leaves no registered service marked running with a dead process, and every one whose
death it saw stopped, exactly when there was none such at the start and each death it drained was
timely. -/
theorem stopAll_reaps_the_dead_iff {w₀ w w' : World} (h₀ : w₀.Fresh) (hrun : Run w₀ w) {registry : ServiceRegistry}
    {timeoutSeconds : ℚ} {fuel : Nat} {n : Int}
    (hret : serviceRegistryStopAll registry timeoutSeconds fuel w = some (n, w')) :
    (∀ t ∈ registry.services, ¬ w'.Zombie t ∧
      ((∃ d ∈ stopAllDrains registry timeoutSeconds fuel w, d.world.DyingNext t) →
        (w'.service t).state = .stopped)) ↔
    ∀ t ∈ registry.services, ¬ w.Zombie t ∧ ∀ d ∈ stopAllDrains registry timeoutSeconds fuel w, d.Timely t := by
  refine forall₂_congr fun t _ => ?_
  have h := (h₀.inv.run hrun).accounted_stopAll hret t
  rw [← h.zombie, and_iff_left_iff_imp]
  intro hno hdied
  exact (h.ended (.inr hdied)).resolve_right hno

/-- The database dies first, although the web service is stopped first. -/
def databaseFirst : List Wait4Answer := [.event (exitOf 0 1), .event (exitOf 1 0)]

/-- The database dies while the web service is being stopped: the call counts one service and leaves
the database running with a dead process. -/
theorem stopAll_leaves_dead_database :
    (webAndDbWith databaseFirst).Fresh ∧
    Run (webAndDbWith databaseFirst)
      (bothRunning databaseFirst) ∧
    webAndDbRegistry.Reachable webAndDb ∧ 1 ∈ webAndDbRegistry.services ∧
    ∃ w', serviceRegistryStopAll webAndDbRegistry 5 10 (bothRunning databaseFirst) =
        some (1, w') ∧ w'.Zombie 1 := by
  refine ⟨webAndDbWith_fresh _, bothRunning_run _, webAndDbRegistry_reachable, by decide +kernel, ?_⟩
  have hend : (serviceRegistryStopAll webAndDbRegistry 5 10
      (bothRunning databaseFirst)).map
        (fun r => (r.1, (r.2.service 1).state, (r.2.service 1).process, (r.2.embla.process 0).state)) =
      some (1, .running, some 0, .terminated) := by decide +kernel
  obtain ⟨⟨n, w'⟩, hx, hr⟩ := Option.map_eq_some_iff.1 hend
  simp only [Prod.mk.injEq] at hr
  obtain ⟨rfl, hst, hp, hdead⟩ := hr
  exact ⟨w', hx, hst, 0, hp, hdead⟩

/-- Each service dies while it is being waited for. -/
def inStopOrder : List Wait4Answer := [.event (exitOf 1 0), .event (exitOf 0 0)]

theorem stopAll_reaps_webAndDb :
    ∃ w', serviceRegistryStopAll webAndDbRegistry 5 10 (bothRunning inStopOrder) =
        some (2, w') ∧
      ∀ t ∈ webAndDbRegistry.services, ¬ (bothRunning inStopOrder).Zombie t ∧
        ∀ d ∈ stopAllDrains webAndDbRegistry 5 10 (bothRunning inStopOrder),
          d.Timely t := by
  have hend : (serviceRegistryStopAll webAndDbRegistry 5 10
      (bothRunning inStopOrder)).map
        (fun r => (r.1, webAndDbRegistry.services.map fun t => (r.2.service t).state)) =
      some (2, [.stopped, .stopped]) := by decide +kernel
  obtain ⟨⟨n, w'⟩, hx, hr⟩ := Option.map_eq_some_iff.1 hend
  simp only [Prod.mk.injEq] at hr
  obtain ⟨rfl, hstates⟩ := hr
  have hstopped : ∀ t ∈ webAndDbRegistry.services, (w'.service t).state = .stopped := by
    intro t ht
    have hmem := List.mem_map_of_mem (f := fun t => (w'.service t).state) ht
    rw [hstates] at hmem
    simpa using hmem
  refine ⟨w', hx, (stopAll_reaps_the_dead_iff (webAndDbWith_fresh _) (bothRunning_run _) hx).1 fun t ht => ?_⟩
  refine ⟨fun hz => ?_, fun _ => hstopped t ht⟩
  have hrunning := hz.1
  rw [hstopped t ht] at hrunning
  cases hrunning

end EmblaOs
