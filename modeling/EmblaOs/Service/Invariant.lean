/-
The invariant of the supervised world: the runtime's tables are in order, a service is running
exactly when it has a process, that process is in the table, and no process belongs to two
services. Every elementary call keeps it, so a terminated instance can always be reaped and a start
fails only for want of room.
-/
import EmblaOs.Service.Runs

namespace EmblaOs

open Lib

namespace World

structure Inv (w : World) : Prop where
  embla : w.embla.Inv
  owns : ∀ s, (w.service s).state = .running → ∃ p, (w.service s).process = some p ∧ w.embla.Tracked p
  idle : ∀ s, (w.service s).state = .stopped → (w.service s).process = none
  apart : ∀ s t p, (w.service s).process = some p → (w.service t).process = some p → s = t

theorem Fresh.inv {w : World} (h : w.Fresh) : w.Inv := by
  obtain ⟨host, he⟩ := h.embla
  refine ⟨by rw [he]; exact Embla.inv_create host, fun s hs => ?_, fun s _ => (h.services s).process,
    fun s t p hs _ => ?_⟩
  · rw [(h.services s).state] at hs
    cases hs
  · rw [(h.services s).process] at hs
    cases hs

/-- A process a service holds is tracked. -/
theorem Inv.tracked {w : World} (h : w.Inv) {s : ServicePtr} {p : ProcessPtr}
    (hp : (w.service s).process = some p) : (w.service s).state = .running ∧ w.embla.Tracked p := by
  cases hs : (w.service s).state with
  | stopped =>
    rw [h.idle s hs] at hp
    cases hp
  | running =>
    obtain ⟨q, hq, ht⟩ := h.owns s hs
    rw [hp] at hq
    cases hq
    exact ⟨rfl, ht⟩

theorem Inv.withEmbla {w : World} (h : w.Inv) {e : Embla} (he : e.Inv)
    (ht : ∀ p, w.embla.Tracked p → e.Tracked p) : (w.withEmbla e).Inv := by
  refine ⟨he, fun s hs => ?_, h.idle, h.apart⟩
  obtain ⟨p, hp, htracked⟩ := h.owns s hs
  exact ⟨p, hp, ht p htracked⟩

/-- Writes that leave state and process alone. -/
theorem Inv.modifyService {w : World} (h : w.Inv) (s : ServicePtr) {f : Service → Service}
    (hf : ∀ r, (f r).state = r.state ∧ (f r).process = r.process) : (w.modifyService s f).Inv := by
  have hfield : ∀ t, ((w.modifyService s f).service t).state = (w.service t).state ∧
      ((w.modifyService s f).service t).process = (w.service t).process := by
    intro t
    rcases eq_or_ne t s with rfl | hne
    · rw [service_modifyService_self]
      exact hf _
    · rw [service_modifyService_of_ne w f hne]
      exact ⟨rfl, rfl⟩
  refine ⟨h.embla, fun t ht => ?_, fun t ht => ?_, fun t u p ht hu => ?_⟩
  · rw [(hfield t).1] at ht
    rw [(hfield t).2]
    exact h.owns t ht
  · rw [(hfield t).1] at ht
    rw [(hfield t).2]
    exact h.idle t ht
  · rw [(hfield t).2] at ht
    rw [(hfield u).2] at hu
    exact h.apart t u p ht hu

theorem Inv.logged {w' : World} (h : w'.Inv) (call : ServiceCall) (s : ServicePtr) (w : World) (result : Int) :
    (World.logged call s w result w').Inv :=
  ⟨h.embla, h.owns, h.idle, h.apart⟩

theorem Inv.onlyHost {w : World} (h : w.Inv) {e : Embla} (ho : w.embla.OnlyHost e) : (w.withEmbla e).Inv := by
  refine h.withEmbla (ho.inv h.embla) fun p hp => ?_
  obtain ⟨host, rfl⟩ := ho
  exact hp

/-! ## The elementary calls -/

/-- A started service holds the new process. -/
theorem Inv.launched {w : World} (h : w.Inv) {s : ServicePtr} {e : Embla} {name : String} (now : ℚ)
    (hsp : w.embla.Spawnable) (hl : Embla.Launched name w.embla e) :
    ((w.withEmbla e.ticked).modifyService s (Service.launched w.embla.processHeap.next now)).Inv := by
  have he : e.ticked.Inv := Embla.OnlyHost.inv ⟨_, rfl⟩ (hl.inv h.embla hsp)
  have htracked : ∀ p, e.ticked.Tracked p ↔ w.embla.Tracked p ∨ p = w.embla.processHeap.next := hl.tracked
  -- the new process is nobody's yet
  have hfresh : ∀ t, (w.service t).process ≠ some w.embla.processHeap.next := by
    intro t ht
    have := h.embla.alloc (h.tracked ht).2
    lia
  have hself := (w.withEmbla e.ticked).service_modifyService_self s (Service.launched w.embla.processHeap.next now)
  have hother : ∀ t, t ≠ s → ((w.withEmbla e.ticked).modifyService s
      (Service.launched w.embla.processHeap.next now)).service t = w.service t :=
    fun t => service_modifyService_of_ne _ _
  refine ⟨he, fun t ht => ?_, fun t ht => ?_, fun t u p ht hu => ?_⟩
  · rcases eq_or_ne t s with rfl | hne
    · rw [hself]
      exact ⟨_, rfl, (htracked _).2 (.inr rfl)⟩
    · rw [hother t hne] at ht ⊢
      obtain ⟨p, hp, hin⟩ := h.owns t ht
      exact ⟨p, hp, (htracked p).2 (.inl hin)⟩
  · rcases eq_or_ne t s with rfl | hne
    · rw [hself] at ht
      cases ht
    · rw [hother t hne] at ht ⊢
      exact h.idle t ht
  · rcases eq_or_ne t s with rfl | hts
    · rcases eq_or_ne u t with rfl | hut
      · rfl
      · rw [hself] at ht
        rw [hother u hut] at hu
        cases ht
        exact absurd hu (hfresh u)
    · rw [hother t hts] at ht
      rcases eq_or_ne u s with rfl | hus
      · rw [hself] at hu
        cases hu
        exact absurd ht (hfresh t)
      · rw [hother u hus] at hu
        exact h.apart t u p ht hu

/-- With the tables in order a start on a stopped service succeeds exactly when there is room, and
otherwise changes nothing that is tracked. -/
theorem Inv.start {w : World} (h : w.Inv) (s : ServicePtr) :
    ((w.service s).state ≠ .stopped ∧ serviceStart s w = (-1, .logged .start s w (-1) w)) ∨
    ((w.service s).state = .stopped ∧ ¬ w.embla.Spawnable ∧ ∃ e, e.Inv ∧ Embla.SameTables w.embla e ∧
      e.scheduler = w.embla.scheduler ∧ (∀ p < w.embla.processHeap.next, e.process p = w.embla.process p) ∧
      serviceStart s w = (-1, .logged .start s w (-1) (w.withEmbla e))) ∨
    ((w.service s).state = .stopped ∧ w.embla.Spawnable ∧
      ∃ e, Embla.Launched (w.service s).name w.embla e ∧
        serviceStart s w = (0, .logged .start s w 0 ((w.withEmbla e.ticked).modifyService s
          (Service.launched w.embla.processHeap.next e.host.clock.head)))) := by
  rcases serviceStart_cases s w with hno | ⟨hst, e, hx, hr⟩ | ⟨hst, p, e, hx, hr⟩
  · exact .inl hno
  · right; left
    by_cases hsp : w.embla.Spawnable
    · obtain ⟨e', hx', -⟩ := Embla.emblaSpawn_launched h.embla hsp (w.service s).name
      rw [hx'] at hx
      cases hx
    · obtain ⟨e', hx', hsame, hproc, hsched, -⟩ := Embla.emblaSpawn_failed h.embla hsp (w.service s).name
      rw [hx'] at hx
      cases hx
      refine ⟨hst, hsp, e, ?_, hsame, hsched, hproc, hr⟩
      obtain ⟨q, hq, hlt⟩ := h.embla.queue
      exact h.embla.sameTables hsame ⟨q, by rwa [hsched], fun p hp => lt_of_lt_of_le (hlt p hp) hsame.next⟩
  · right; right
    by_cases hsp : w.embla.Spawnable
    · obtain ⟨e', hx', hl⟩ := Embla.emblaSpawn_launched h.embla hsp (w.service s).name
      rw [hx'] at hx
      cases hx
      exact ⟨hst, hsp, e, hl, hr⟩
    · obtain ⟨e', hx', -⟩ := Embla.emblaSpawn_failed h.embla hsp (w.service s).name
      rw [hx'] at hx
      cases hx

theorem Inv.serviceStart {w : World} (h : w.Inv) (s : ServicePtr) : (serviceStart s w).2.Inv := by
  rcases h.start s with ⟨-, hx⟩ | ⟨-, -, e, he, hsame, -, -, hx⟩ | ⟨-, hsp, e, hl, hx⟩ <;> rw [hx]
  · exact h.logged ..
  · refine (h.withEmbla he fun p hp => ?_).logged ..
    rwa [hsame.tracked]
  · exact (h.launched _ hsp hl).logged ..

theorem Inv.serviceStop {w : World} (h : w.Inv) (s : ServicePtr) : (serviceStop s w).2.Inv := by
  rcases serviceStop_cases s w with ⟨-, hx⟩ | ⟨-, p, -, hx⟩ <;> rw [hx]
  · exact h.logged ..
  · have hflag := h.modifyService s (f := fun r => serviceSetStopRequested r true) fun _ => ⟨rfl, rfl⟩
    exact (hflag.onlyHost (emblaTerminate_host p w.embla)).logged ..

theorem Inv.serviceKill {w : World} (h : w.Inv) (s : ServicePtr) : (serviceKill s w).2.Inv := by
  rcases serviceKill_cases s w with ⟨-, hx⟩ | ⟨-, p, -, hx⟩ <;> rw [hx]
  · exact h.logged ..
  · exact (h.onlyHost (emblaKill_host p w.embla)).logged ..

/-- With the tables in order a reap never fails: it finds nothing to do, or it takes exactly the
ended instance out of the table. -/
theorem Inv.reap {w : World} (h : w.Inv) (s : ServicePtr) :
    (serviceReap s w = (0, .logged .reap s w 0 w) ∧ ((w.service s).state ≠ .running ∨
      ∃ p, (w.service s).process = some p ∧ (w.embla.process p).state ≠ .terminated)) ∨
    ∃ p e, (w.service s).state = .running ∧ (w.service s).process = some p ∧
      (w.embla.process p).state = .terminated ∧ Embla.Reaped p w.embla e ∧ e.Inv ∧
      serviceReap s w = (1, .logged .reap s w 1
        ((w.modifyService s (Service.reaped (w.embla.process p))).withEmbla e)) := by
  rcases serviceReap_cases s w with ⟨r, hr, hx, hneg, hzero⟩ | ⟨p, hst, hp, hdead, ⟨hf, -⟩ | ⟨-, hx⟩⟩
  · left
    have hr0 : r = 0 := by
      rcases lt_or_eq_of_le hr with hlt | heq
      · obtain ⟨h1, h2⟩ := hneg hlt
        obtain ⟨p, hp, -⟩ := h.owns s h1
        rw [h2] at hp
        cases hp
      · exact heq
    subst hr0
    exact ⟨hx, hzero rfl⟩
  · obtain ⟨e, hx, -⟩ := Embla.emblaReapProcess_ok h.embla (h.tracked hp).2 hdead
    rw [hx] at hf
    exact absurd rfl hf
  · right
    obtain ⟨e, hx', hreaped, he⟩ := Embla.emblaReapProcess_ok h.embla (h.tracked hp).2 hdead
    rw [hx'] at hx
    exact ⟨p, e, hst, hp, hdead, hreaped, he, hx⟩

theorem Inv.serviceReap {w : World} (h : w.Inv) (s : ServicePtr) : (serviceReap s w).2.Inv := by
  rcases h.reap s with ⟨hx, -⟩ | ⟨p, e, hst, hp, hdead, hreaped, he, hx⟩ <;> rw [hx]
  · exact h.logged ..
  · have hself := w.service_modifyService_self s (Service.reaped (w.embla.process p))
    have hother : ∀ t, t ≠ s → (w.modifyService s (Service.reaped (w.embla.process p))).service t = w.service t :=
      fun t => service_modifyService_of_ne _ _
    refine Inv.logged ⟨he, fun t ht => ?_, fun t ht => ?_, fun t u q ht hu => ?_⟩ ..
    · rw [service_withEmbla] at ht ⊢
      rcases eq_or_ne t s with rfl | hne
      · rw [hself] at ht
        cases ht
      · rw [hother t hne] at ht ⊢
        obtain ⟨q, hq, hin⟩ := h.owns t ht
        refine ⟨q, hq, (hreaped.tracked q).2 ⟨hin, ?_⟩⟩
        rintro rfl
        exact hne (h.apart t s q hq hp)
    · rw [service_withEmbla] at ht ⊢
      rcases eq_or_ne t s with rfl | hne
      · rw [hself]
        rfl
      · rw [hother t hne] at ht ⊢
        exact h.idle t ht
    · rw [service_withEmbla] at ht hu
      rcases eq_or_ne t s with rfl | hts
      · rw [hself] at ht
        cases ht
      · rcases eq_or_ne u s with rfl | hus
        · rw [hself] at hu
          cases hu
        · rw [hother t hts] at ht
          rw [hother u hus] at hu
          exact h.apart t u q ht hu

/-- A process that has ended is reaped, and nothing is asked of the host. -/
theorem Inv.reap_dead {w : World} (h : w.Inv) {s : ServicePtr} {p : ProcessPtr} (hp : (w.service s).process = some p)
    (hdead : (w.embla.process p).state = .terminated) :
    (EmblaOs.serviceReap s w).1 = 1 ∧
      (EmblaOs.serviceReap s w).2.service s = (w.service s).reaped (w.embla.process p) ∧
      (EmblaOs.serviceReap s w).2.embla.host = w.embla.host := by
  rcases h.reap s with ⟨-, hne | ⟨q, hq, halive⟩⟩ | ⟨q, e, -, hq, -, hreaped, -, hx⟩
  · exact absurd (h.tracked hp).1 hne
  · rw [hp] at hq
    cases hq
    exact absurd hdead halive
  · rw [hp] at hq
    cases hq
    rw [hx]
    exact ⟨rfl, w.service_modifyService_self .., hreaped.host⟩

theorem Inv.restartCleared {w : World} (h : w.Inv) (s : ServicePtr) : (w.restartCleared s).Inv :=
  (h.onlyHost ⟨_, rfl⟩).modifyService s (f := fun r => serviceSetRestartPending r false) fun _ => ⟨rfl, rfl⟩

theorem Inv.serviceTick {w : World} (h : w.Inv) (s : ServicePtr) : (serviceTick s w).2.Inv :=
  serviceTick_preserves (fun s _ h => h.serviceStart s) (fun s _ h => h.serviceReap s)
    (fun _ h => h.onlyHost ⟨_, rfl⟩) (fun _ s _ hf h => h.modifyService s hf) s h

theorem Inv.drainOneEvent {w : World} (h : w.Inv) : w.drainOneEvent.2.Inv :=
  h.withEmbla (serviceRegistryDrainOneEvent_inv h.embla) fun p hp => (drain_tracked w.embla p).2 hp

theorem Inv.step {w w' : World} (h : w.Inv) (hs : Step w w') : w'.Inv := by
  cases hs with
  | start s => exact h.serviceStart s
  | stop s => exact h.serviceStop s
  | kill s => exact h.serviceKill s
  | reap s => exact h.serviceReap s
  | tick s => exact h.serviceTick s
  | drain => exact h.drainOneEvent
  | aged _ => exact h.onlyHost ⟨_, rfl⟩

theorem Inv.steps {w w' : World} (h : w.Inv) (hs : w.Steps w') : w'.Inv :=
  Steps.invariant (fun _ _ => Inv.step) hs h

theorem Inv.run {ok : World → Op → Prop} {w w' : World} (h : w.Inv) (hr : RunWhere ok w w') : w'.Inv :=
  hr.invariant (fun _ _ => Inv.step) h

/-- The supervisor leaves the tables in order, however long it runs and however it ends. -/
theorem Inv.supervise {w w' : World} (h : w.Inv) {registry : ServiceRegistry} {stopTimeoutSeconds : ℚ}
    {shutdown : Nat → Bool} {fuel : Nat} {result : Int}
    (hx : serviceRegistrySupervise registry stopTimeoutSeconds shutdown fuel w = some (result, w')) : w'.Inv :=
  h.run (serviceRegistrySupervise_run hx)

end World

end EmblaOs
