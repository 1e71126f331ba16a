/-
What supervision does to the ready queue: every successful start appends its process, and nothing
the supervisor calls ever takes one out. The queue holds all processes started so far, so after
sixteen starts no service can be started any more, whatever the process and group tables have to
offer.
-/
import EmblaOs.Service.Invariant

namespace EmblaOs

open Lib

def CallRecord.succeededStart (c : CallRecord) : Bool := c.call = .start && c.result = 0

def CallRecord.succeededReap (c : CallRecord) : Bool := c.call = .reap && c.result = 1

namespace World

/-- How many calls of `service_start` have succeeded, also those made by ticks and by `start_all`. -/
def starts (w : World) : Nat := w.calls.countP CallRecord.succeededStart

/-- How many instances have been reaped. -/
def reaps (w : World) : Nat := w.calls.countP CallRecord.succeededReap

theorem starts_logged (call : ServiceCall) (s : ServicePtr) (w : World) (result : Int) (w' : World) :
    (logged call s w result w').starts = w'.starts + if call = .start ∧ result = 0 then 1 else 0 := by
  simp [starts, List.countP_cons, CallRecord.succeededStart]

theorem reaps_logged (call : ServiceCall) (s : ServicePtr) (w : World) (result : Int) (w' : World) :
    (logged call s w result w').reaps = w'.reaps + if call = .reap ∧ result = 1 then 1 else 0 := by
  simp [reaps, List.countP_cons, CallRecord.succeededReap]

/-- The ready queue is the list of all processes ever started. -/
structure Hoarding (w : World) : Prop where
  inv : w.Inv
  queue : ∃ q, w.embla.scheduler.Queue q ∧ q.length = w.starts ∧ (∀ p, w.embla.Tracked p → p ∈ q) ∧
    ((∃ p ∈ q, ¬ w.embla.Tracked p) ↔ 0 < w.reaps)

theorem Hoarding.fresh {w : World} (h : w.Fresh) : w.Hoarding := by
  obtain ⟨host, he⟩ := h.embla
  refine ⟨h.inv, [], ?_, ?_, ?_, ?_⟩
  · rw [he]
    exact schedulerCreate_queue
  · simp [starts, h.calls]
  · rw [he]
    intro p hp
    exact hp
  · simp [reaps, h.calls]

/-- Only the scheduler, the table and the calls matter. -/
theorem Hoarding.congr {w w' : World} (h : w.Hoarding) (hinv : w'.Inv)
    (hs : w'.embla.scheduler = w.embla.scheduler) (ht : ∀ p, w'.embla.Tracked p ↔ w.embla.Tracked p)
    (hstarts : w'.starts = w.starts) (hreaps : w'.reaps = w.reaps) : w'.Hoarding := by
  obtain ⟨q, h1, h2, h3, h4⟩ := h.queue
  refine ⟨hinv, q, by rwa [hs], by rwa [hstarts], fun p hp => h3 p ((ht p).1 hp), ?_⟩
  rw [hreaps, ← h4]
  simp only [ht]

theorem Hoarding.logged {w' : World} (h : w'.Hoarding) {call : ServiceCall} {result : Int}
    (hs : ¬ (call = .start ∧ result = 0)) (hr : ¬ (call = .reap ∧ result = 1)) (s : ServicePtr) (w : World) :
    (World.logged call s w result w').Hoarding := by
  refine h.congr (h.inv.logged ..) rfl (fun _ => Iff.rfl) ?_ ?_
  · rw [starts_logged, if_neg hs, Nat.add_zero]
  · rw [reaps_logged, if_neg hr, Nat.add_zero]

theorem Hoarding.serviceStart {w : World} (h : w.Hoarding) (s : ServicePtr) : (serviceStart s w).2.Hoarding := by
  rcases h.inv.start s with ⟨-, hx⟩ | ⟨-, -, e, he, hsame, hsched, -, hx⟩ | ⟨-, hsp, e, hl, hx⟩ <;> rw [hx]
  · exact h.logged (by simp) (by simp) s w
  · have ht := hsame.tracked
    exact (h.congr (h.inv.withEmbla he fun p => (ht p).2) hsched ht rfl rfl).logged (by simp) (by simp) s w
  · obtain ⟨q, h1, h2, h3, h4⟩ := h.queue
    refine ⟨(h.inv.launched _ hsp hl).logged .., q ++ [w.embla.processHeap.next], hl.queue hsp.2 h1, ?_, fun p hp => ?_, ?_⟩
    · rw [List.length_append, h2, starts_logged]
      rfl
    · rcases (hl.tracked p).1 hp with hp | rfl
      · exact List.mem_append_left _ (h3 p hp)
      · simp
    · have ht : ∀ p, Embla.Tracked (World.logged .start s w 0 ((w.withEmbla e.ticked).modifyService s
          (Service.launched w.embla.processHeap.next e.host.clock.head))).embla p ↔
          w.embla.Tracked p ∨ p = w.embla.processHeap.next := hl.tracked
      rw [reaps_logged, if_neg (by simp), Nat.add_zero]
      refine Iff.trans ⟨?_, ?_⟩ h4
      · rintro ⟨p, hp, hnot⟩
        rw [ht, not_or] at hnot
        rcases List.mem_append.1 hp with hp | hp
        · exact ⟨p, hp, hnot.1⟩
        · exact absurd (List.mem_singleton.1 hp) hnot.2
      · rintro ⟨p, hp, hnot⟩
        refine ⟨p, List.mem_append_left _ hp, ?_⟩
        rw [ht, not_or]
        refine ⟨hnot, ?_⟩
        -- queued addresses were handed out before the new one
        rintro rfl
        obtain ⟨q', hq', hlt⟩ := h.inv.embla.queue
        have := hlt _ ((h1.unique hq') ▸ hp)
        lia

theorem Hoarding.serviceReap {w : World} (h : w.Hoarding) (s : ServicePtr) : (serviceReap s w).2.Hoarding := by
  have hinv := h.inv.serviceReap s
  rcases h.inv.reap s with ⟨hx, -⟩ | ⟨p, e, hst, hp, hdead, hreaped, he, hx⟩ <;> rw [hx] at hinv ⊢
  · exact h.logged (by simp) (by simp) s w
  · obtain ⟨q, h1, h2, h3, h4⟩ := h.queue
    refine ⟨hinv, q, ?_, ?_, fun x hx => h3 x ((hreaped.tracked x).1 hx).1, ?_⟩
    · rw [embla_logged, embla_withEmbla, hreaped.scheduler]
      exact h1
    · rw [starts_logged, if_neg (by simp), Nat.add_zero]
      exact h2
    · rw [reaps_logged, if_pos ⟨rfl, rfl⟩]
      refine ⟨fun _ => Nat.succ_pos _, fun _ => ⟨p, h3 p (h.inv.tracked hp).2, fun hc => ?_⟩⟩
      exact ((hreaped.tracked p).1 hc).2 rfl

theorem Hoarding.onlyHost {w : World} (h : w.Hoarding) {e : Embla} (ho : w.embla.OnlyHost e) :
    (w.withEmbla e).Hoarding := by
  have hinv := h.inv.onlyHost ho
  obtain ⟨host, rfl⟩ := ho
  exact h.congr hinv rfl (fun _ => Iff.rfl) rfl rfl

theorem Hoarding.modifyService {w : World} (h : w.Hoarding) (s : ServicePtr) {f : Service → Service}
    (hf : ∀ r, (f r).state = r.state ∧ (f r).process = r.process) : (w.modifyService s f).Hoarding :=
  h.congr (h.inv.modifyService s hf) rfl (fun _ => Iff.rfl) rfl rfl

theorem Hoarding.step {w w' : World} (h : w.Hoarding) (hs : Step w w') : w'.Hoarding := by
  cases hs with
  | start s => exact h.serviceStart s
  | stop s =>
    rcases serviceStop_cases s w with ⟨-, hx⟩ | ⟨-, p, -, hx⟩ <;> rw [hx]
    · exact h.logged (by simp) (by simp) s w
    · have hflag := h.modifyService s (f := fun r => serviceSetStopRequested r true) fun _ => ⟨rfl, rfl⟩
      exact (hflag.onlyHost (emblaTerminate_host p w.embla)).logged (by simp) (by simp) s w
  | kill s =>
    rcases serviceKill_cases s w with ⟨-, hx⟩ | ⟨-, p, -, hx⟩ <;> rw [hx]
    · exact h.logged (by simp) (by simp) s w
    · exact (h.onlyHost (emblaKill_host p w.embla)).logged (by simp) (by simp) s w
  | reap s => exact h.serviceReap s
  | tick s =>
    exact serviceTick_preserves (fun s _ h => h.serviceStart s) (fun s _ h => h.serviceReap s)
      (fun _ h => h.onlyHost ⟨_, rfl⟩) (fun _ s _ hf h => h.modifyService s hf) s h
  | drain => exact h.congr h.inv.drainOneEvent (drain_scheduler w.embla) (drain_tracked w.embla) rfl rfl
  | aged _ => exact h.onlyHost ⟨_, rfl⟩

end World

/-- In every run, a start that finds all it needs succeeds exactly while fewer than sixteen starts
have succeeded before, and the ready queue is free of reaped processes exactly while nothing has
been reaped. -/
theorem supervision_capacity_iff {w₀ w : World} (h₀ : w₀.Fresh) (hrun : Run w₀ w) :
    (∀ s, (w.service s).state = .stopped → w.embla.SpawnResources →
      ((serviceStart s w).1 = 0 ↔ w.starts < schedulerInitialCapacity)) ∧
    ((∀ p, some p ∈ schedulerReady w.embla.scheduler → w.embla.Tracked p) ↔ w.reaps = 0) := by
  have h : w.Hoarding := hrun.invariant (fun _ _ => World.Hoarding.step) (.fresh h₀)
  obtain ⟨q, hq, hlen, -, hreaps⟩ := h.queue
  constructor
  · intro s hst hres
    rcases h.inv.start s with ⟨hne, -⟩ | ⟨-, hsp, e, -, -, -, -, hx⟩ | ⟨-, hsp, e, hl, hx⟩ <;> try rw [hx]
    · exact absurd hst hne
    · simp only [show ¬ ((-1 : Int) = 0) by decide, false_iff]
      intro hlt
      exact hsp ⟨hres, by rw [hq.count, hlen]; exact hlt⟩
    · simp only [true_iff]
      rw [← hlen, ← hq.count]
      exact hsp.2
  · rw [schedulerReady_queue hq]
    constructor
    · intro hall
      by_contra hne
      obtain ⟨p, hp, hnot⟩ := hreaps.2 (Nat.pos_of_ne_zero hne)
      exact hnot (hall p (List.mem_map_of_mem hp))
    · intro hzero p hp
      by_contra hnot
      obtain ⟨p', hp', heq⟩ := List.mem_map.1 hp
      cases heq
      have := hreaps.1 ⟨p, hp', hnot⟩
      omega

/-- The instance is started, its exit is drained and it is reaped. -/
def crashCycle (w : World) : World := (serviceReap 0 (serviceStart 0 w).2.drainOneEvent.2).2

theorem crashCycle_run (w : World) : ∀ n, Run w (crashCycle^[n] w)
  | 0 => .refl w
  | n + 1 => by
    rw [Function.iterate_succ_apply']
    exact (((crashCycle_run w n).next (.start 0) trivial rfl).next .drain trivial rfl).next (.reap 0) trivial rfl

/-- One service, on a host that refuses nothing and reports that each of the first sixteen children
exits with 1. -/
def crashing : World :=
  .boot (serviceCreate "worker") (.generous ((List.range 16).map fun n => .event (exitOf n 1)) [] 0)

theorem crashing_fresh : crashing.Fresh := World.boot_fresh ⟨rfl, rfl, rfl, rfl, rfl, rfl⟩ _

/-- After sixteen crashes both tables are empty and every host call would succeed, but the stopped
service cannot be started. -/
theorem supervision_capacity_exhausted :
    crashing.Fresh ∧ Run crashing (crashCycle^[16] crashing) ∧
    ((crashCycle^[16] crashing).service 0).state = .stopped ∧
    (crashCycle^[16] crashing).embla.processManager.processes = [] ∧
    (crashCycle^[16] crashing).embla.SpawnResources ∧
    (serviceStart 0 (crashCycle^[16] crashing)).1 = -1 :=
  ⟨crashing_fresh, crashCycle_run _ _, by decide +kernel, by decide +kernel,
    ⟨by decide +kernel, by decide +kernel, by decide +kernel, by decide +kernel, by decide +kernel,
      ⟨by decide +kernel, by decide +kernel⟩⟩, by decide +kernel⟩

theorem supervision_capacity_after_crash :
    (serviceStart 0 (crashCycle^[1] crashing)).1 = 0 ∧
    ¬ ∀ p, some p ∈ schedulerReady (crashCycle^[1] crashing).embla.scheduler →
      (crashCycle^[1] crashing).embla.Tracked p := by
  obtain ⟨h1, h2⟩ := supervision_capacity_iff crashing_fresh (crashCycle_run crashing 1)
  exact ⟨(h1 0 (by decide +kernel) ⟨by decide +kernel, by decide +kernel, by decide +kernel, by decide +kernel,
    by decide +kernel, ⟨by decide +kernel, by decide +kernel⟩⟩).2 (by decide +kernel),
    fun hall => absurd (h2.1 hall) (by decide +kernel)⟩

end EmblaOs
