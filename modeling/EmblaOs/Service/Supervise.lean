/-
The supervisor. `service_registry_supervise` starts the registry, then goes through rounds until
shutdown is requested, and stops the registry. A round drains the events until the host has no more
and ticks every service. So a round is one step of every service of the registry: an instance whose
death is among the reports of the round is settled in it, a pending restart is looked at once, and
whatever lives on is left alone. What ends the call is the first round in which shutdown has been
requested, given that the host falls silent again and again and that its clock goes on.
-/
import EmblaOs.Process.Calls
import EmblaOs.Service.Editing
import EmblaOs.Service.Shutdown
import EmblaOs.Service.Supervision

namespace EmblaOs

open Lib

/-- The worlds in which the loop of `service_registry_supervise` looks at its condition, first to last. -/
def superviseLooks (registry : ServiceRegistry) (shutdown : Nat → Bool) (fuel : Nat) : Nat → Nat → World → List World
  | 0, _, _ => []
  | rounds + 1, round, w =>
    w :: if shutdown round then []
      else
        match superviseDrain fuel w with
        | none => []
        | some w => superviseLooks registry shutdown fuel rounds (round + 1) (superviseTicks registry.services w)

/-- What a round makes of a service. `Read` holds of the times the clock shows in the round, and `Dead`
of the record of the service's process if it is running a process that is dead. -/
inductive Service.Move (Read : ℚ → Prop) (Dead : Process → Prop) (r : Service) : Service → Prop
  | idle (hp : r.restartPending = false) (h : ∀ process, ¬ Dead process) : Move Read Dead r r
  | settled (hp : r.restartPending = false) {process : Process} (h : Dead process)
      (hw : r.stopRequested = true ∨ (r.reaped process).shouldRestart = false) :
      Move Read Dead r (serviceSetStopRequested (r.reaped process) false)
  | scheduled (hp : r.restartPending = false) {process : Process} (h : Dead process) (hs : r.stopRequested = false)
      (hw : (r.reaped process).shouldRestart = true) {now : ℚ} (hnow : Read now) :
      Move Read Dead r ((r.reaped process).rescheduled now)
  | waiting (hp : r.restartPending = true) {now : ℚ} (hnow : Read now) (hlt : now < r.restartAllowedAt) :
      Move Read Dead r r
  | failed (hp : r.restartPending = true) {now : ℚ} (hnow : Read now) (hge : r.restartAllowedAt ≤ now) :
      Move Read Dead r (serviceSetRestartPending r false)
  | restarted (hp : r.restartPending = true) {now : ℚ} (hnow : Read now) (hge : r.restartAllowedAt ≤ now)
      (p : ProcessPtr) {start : ℚ} (hstart : Read start) :
      Move Read Dead r ((serviceSetRestartPending r false).launched p start)

theorem Service.Move.imp {Read Read' : ℚ → Prop} {Dead Dead' : Process → Prop} {r r' : Service}
    (h : r.Move Read Dead r') (hread : ∀ now, Read now → Read' now) (hdead : ∀ process, Dead process ↔ Dead' process) :
    r.Move Read' Dead' r' := by
  cases h with
  | idle hp h => exact .idle hp fun process hd => h process ((hdead process).2 hd)
  | settled hp h hw => exact .settled hp ((hdead _).1 h) hw
  | scheduled hp h hs hw hnow => exact .scheduled hp ((hdead _).1 h) hs hw (hread _ hnow)
  | waiting hp hnow hlt => exact .waiting hp (hread _ hnow) hlt
  | failed hp hnow hge => exact .failed hp (hread _ hnow) hge
  | restarted hp hnow hge p hstart => exact .restarted hp (hread _ hnow) hge p (hread _ hstart)

namespace World

/-- The service is a zombie, and this is the record of its dead process. -/
def Corpse (w : World) (s : ServicePtr) (r : Process) : Prop :=
  (w.service s).state = .running ∧ ∃ p, (w.service s).process = some p ∧ w.embla.process p = r ∧ r.state = .terminated

/-- The clock shows this time at one of its next so many readings. -/
def Shows (w : World) (readings : Nat) (now : ℚ) : Prop := ∃ i < readings, w.embla.host.clock.get i = now

/-- A service with a restart pending is stopped. -/
def Calm (registry : ServiceRegistry) (w : World) : Prop :=
  ∀ s ∈ registry.services, (w.service s).restartPending = true → (w.service s).state = .stopped

variable {registry : ServiceRegistry} {w w' : World} {s t : ServicePtr}

theorem zombie_iff_corpse : w.Zombie s ↔ ∃ r, w.Corpse s r := by
  constructor
  · rintro ⟨hst, p, hp, hdead⟩
    exact ⟨_, hst, p, hp, rfl, hdead⟩
  · rintro ⟨_, hst, p, hp, rfl, hdead⟩
    exact ⟨hst, p, hp, hdead⟩

/-! ## One tick -/

/-- A start leaves the records of the processes there were. -/
theorem Inv.process_serviceStart (h : w.Inv) (s : ServicePtr) {p : ProcessPtr} (hp : w.embla.Tracked p) :
    (EmblaOs.serviceStart s w).2.embla.process p = w.embla.process p := by
  rcases h.start s with ⟨-, hx⟩ | ⟨-, -, e, -, -, -, hproc, hx⟩ | ⟨-, hsp, e, hl, hx⟩ <;> rw [hx]
  · rfl
  · exact hproc p (h.embla.alloc hp)
  · exact Spawned.old hl (h.embla.withNewGroup hsp.1.groupRoom) hp

theorem Inv.process_serviceReap (h : w.Inv) (s : ServicePtr) (p : ProcessPtr) :
    (EmblaOs.serviceReap s w).2.embla.process p = w.embla.process p := by
  rcases h.reap s with ⟨hx, -⟩ | ⟨q, e, -, -, -, hreaped, -, hx⟩ <;> rw [hx]
  · rfl
  · exact congrArg (fun heap => Heap.read heap p) hreaped.heap

theorem Inv.process_serviceTick (h : w.Inv) (s : ServicePtr) {p : ProcessPtr} (hp : w.embla.Tracked p) :
    (EmblaOs.serviceTick s w).2.embla.process p = w.embla.process p := by
  obtain ⟨r, v, -, hv, hout⟩ := serviceTick_ways s w
  rw [hv]
  cases hout with
  | waiting => rfl
  | due => exact (h.restartCleared s).process_serviceStart s hp
  | idle => exact h.process_serviceReap s p
  | noRestart => exact h.process_serviceReap s p
  | stopHonoured => exact h.process_serviceReap s p
  | restart =>
    rw [serviceScheduleRestart_eq]
    exact h.process_serviceReap s p

/-- The tick of another service leaves a zombie as it is and makes none. -/
theorem Inv.corpse_serviceTick (h : w.Inv) (hne : t ≠ s) (r : Process) :
    (EmblaOs.serviceTick s w).2.Corpse t r ↔ w.Corpse t r := by
  unfold Corpse
  rw [serviceTick_other hne]
  refine and_congr_right fun _ => exists_congr fun p => and_congr_right fun hp => ?_
  rw [h.process_serviceTick s (h.tracked hp).2]

/-- A service that is stopped, with its restart due: the start fails, or there is a new live instance. -/
theorem Inv.due_serviceTick (h : w.Inv) (s : ServicePtr) (hst : (w.service s).state = .stopped) :
    ∃ n, 1 ≤ n ∧ (EmblaOs.serviceStart s (w.restartCleared s)).2.embla.host.clock = w.embla.host.clock.drop n ∧
      ((EmblaOs.serviceStart s (w.restartCleared s)).2.service s = serviceSetRestartPending (w.service s) false ∨
        ∃ p, ((EmblaOs.serviceStart s (w.restartCleared s)).2.embla.process p).state ≠ .terminated ∧
          ∃ start, w.Shows n start ∧ (EmblaOs.serviceStart s (w.restartCleared s)).2.service s =
            (serviceSetRestartPending (w.service s) false).launched p start) := by
  have hcleared := w.service_restartCleared s
  have hcalls := emblaSpawn_calls ((w.restartCleared s).service s).name (w.restartCleared s).embla
  rcases serviceStart_cases s (w.restartCleared s) with ⟨hrun, -⟩ | ⟨-, e, he, hx⟩ | ⟨-, p, e, he, hx⟩
  · rw [hcleared] at hrun
    exact absurd hst hrun
  · rw [he] at hcalls
    rw [hx]
    exact ⟨1, le_refl _, hcalls.kept.2.2, .inl hcleared⟩
  · have hclock : e.host.clock = w.embla.host.clock.drop 1 := by
      rw [he] at hcalls
      exact hcalls.kept.2.2
    by_cases hsp : (w.restartCleared s).embla.Spawnable
    swap
    · obtain ⟨e', hx', -⟩ := Embla.emblaSpawn_failed (h.restartCleared s).embla hsp ((w.restartCleared s).service s).name
      rw [hx'] at he
      cases he
    obtain ⟨e', hx', hl⟩ := Embla.emblaSpawn_launched (h.restartCleared s).embla hsp ((w.restartCleared s).service s).name
    rw [hx'] at he
    cases he
    rw [hx]
    refine ⟨2, by decide, ?_, .inr ⟨(w.restartCleared s).embla.processHeap.next, ?_,
      e.host.clock.head, ⟨1, by decide, ?_⟩, ?_⟩⟩
    · change e.host.clock.tail = _
      rw [hclock]
      rfl
    · obtain ⟨pid, -, hnew, -⟩ := Spawned.record hl
      have hready : (e.process (w.restartCleared s).embla.processHeap.next).state = .ready :=
        congrArg Process.state hnew
      change (e.process (w.restartCleared s).embla.processHeap.next).state ≠ .terminated
      rw [hready]
      exact fun hc => by cases hc
    · rw [hclock]
      rfl
    · rw [← hcleared]
      exact service_modifyService_self ..

/-- A reap that ends an instance ended a dead one. -/
theorem Inv.corpse_of_reaped (h : w.Inv) (hone : (EmblaOs.serviceReap s w).1 = 1) :
    ∃ r, w.Corpse s r ∧ (EmblaOs.serviceReap s w).2.service s = (w.service s).reaped r := by
  rcases h.reap s with ⟨hx, -⟩ | ⟨p, e, hst, hp, hdead, -, -, hx⟩ <;> rw [hx] at hone ⊢
  · cases hone
  · exact ⟨w.embla.process p, ⟨hst, p, hp, rfl, hdead⟩, w.service_modifyService_self ..⟩

/-- One tick: the clock moves on by some readings, the service makes a move, and it is no zombie
after. -/
structure Stepped (n : Nat) (s : ServicePtr) (w w' : World) : Prop where
  clock : w'.embla.host.clock = w.embla.host.clock.drop n
  move : (w.service s).Move (w.Shows n) (w.Corpse s) (w'.service s)
  clean : ¬ w'.Zombie s
  calm : (w'.service s).restartPending = true → (w'.service s).state = .stopped

theorem not_zombie_of_state (h : (w.service s).state = .stopped) : ¬ w.Zombie s := by
  rintro ⟨hrun, -⟩
  rw [h] at hrun
  cases hrun

theorem Inv.stepped_serviceTick (h : w.Inv) (s : ServicePtr)
    (hcalm : (w.service s).restartPending = true → (w.service s).state = .stopped) :
    ∃ n, Stepped n s w (EmblaOs.serviceTick s w).2 := by
  obtain ⟨r, v, -, hv, hout⟩ := serviceTick_ways s w
  rw [hv]
  cases hout with
  | waiting hp hlt =>
    refine ⟨1, rfl, .waiting hp ⟨0, by decide, rfl⟩ hlt, ?_, hcalm⟩
    exact not_zombie_of_state (hcalm hp)
  | due hp hge =>
    obtain ⟨n, hn, hclock, hrec | ⟨p, hlive, start, hstart, hrec⟩⟩ := h.due_serviceTick s (hcalm hp)
    · refine ⟨n, hclock, ?_, not_zombie_of_state ?_, ?_⟩
      · rw [hrec]
        exact .failed hp ⟨0, hn, rfl⟩ (not_lt.1 hge)
      · rw [hrec]
        exact hcalm hp
      · rw [hrec]
        exact fun hc => by cases hc
    · refine ⟨n, hclock, ?_, ?_, ?_⟩
      · rw [hrec]
        exact .restarted hp ⟨0, hn, rfl⟩ (not_lt.1 hge) p hstart
      · rintro ⟨-, q, hq, hdead⟩
        rw [hrec] at hq
        cases hq
        exact hlive hdead
      · rw [hrec]
        exact fun hc => by cases hc
  | idle hp hle =>
    rcases h.reap s with ⟨hx, hno⟩ | ⟨p, e, -, -, -, -, -, hx⟩
    swap
    · rw [hx] at hle
      exact absurd hle (by simp)
    rw [hx]
    have hclean : ¬ w.Zombie s := by
      rintro ⟨hst, p, hp, hdead⟩
      rcases hno with hno | ⟨q, hq, hlive⟩
      · exact hno hst
      · rw [hp] at hq
        cases hq
        exact hlive hdead
    exact ⟨0, rfl, .idle hp fun r hr => hclean (zombie_iff_corpse.2 ⟨r, hr⟩), hclean, hcalm⟩
  | stopHonoured hp hone hs =>
    obtain ⟨r, hcorpse, hrec⟩ := h.corpse_of_reaped hone
    have hself := (EmblaOs.serviceReap s w).2.service_modifyService_self s fun r => serviceSetStopRequested r false
    rw [hrec] at hs hself
    refine ⟨0, congrArg Host.clock (serviceReap_host s w), ?_, not_zombie_of_state ?_, ?_⟩
    · rw [hself]
      exact .settled hp hcorpse (.inl hs)
    · rw [hself]
      rfl
    · rw [hself]
      exact fun _ => rfl
  | noRestart hp hone hs hn =>
    obtain ⟨r, hcorpse, hrec⟩ := h.corpse_of_reaped hone
    rw [hrec] at hs hn
    have hsame : serviceSetStopRequested ((w.service s).reaped r) false = (w.service s).reaped r := by
      unfold serviceSetStopRequested
      rw [← hs]
    refine ⟨0, congrArg Host.clock (serviceReap_host s w), ?_, not_zombie_of_state ?_, ?_⟩
    · rw [hrec, ← hsame]
      exact .settled hp hcorpse (.inr hn)
    · rw [hrec]
      rfl
    · rw [hrec]
      exact fun _ => rfl
  | restart hp hone hs hn =>
    obtain ⟨r, hcorpse, hrec⟩ := h.corpse_of_reaped hone
    have hhost := congrArg Host.clock (serviceReap_host s w)
    rw [serviceScheduleRestart_eq, hhost]
    have hself := ((EmblaOs.serviceReap s w).2.withEmbla (EmblaOs.serviceReap s w).2.embla.ticked).service_modifyService_self
      s (Service.rescheduled w.embla.host.clock.head)
    rw [service_withEmbla, hrec] at hself
    rw [hrec] at hs hn
    have hstopped : (((w.service s).reaped r).rescheduled w.embla.host.clock.head).state = .stopped :=
      (Service.rescheduled_kept _ _).1
    refine ⟨1, ?_, ?_, not_zombie_of_state ?_, ?_⟩
    · exact congrArg Stream'.tail hhost
    · rw [hself]
      exact .scheduled hp hcorpse hs hn ⟨0, by decide, rfl⟩
    · rw [hself]
      exact hstopped
    · rw [hself]
      exact fun _ => hstopped

/-- Starting takes none of the reports to come. -/
theorem wait4s_serviceStart (s : ServicePtr) (w : World) :
    (EmblaOs.serviceStart s w).2.embla.host.wait4s = w.embla.host.wait4s := by
  have hcalls := emblaSpawn_calls (w.service s).name w.embla
  rcases serviceStart_cases s w with ⟨-, hx⟩ | ⟨-, e, he, hx⟩ | ⟨-, p, e, he, hx⟩ <;> rw [hx]
  · rfl
  · rw [he] at hcalls
    exact hcalls.kept.2.1
  · rw [he] at hcalls
    exact hcalls.kept.2.1

theorem wait4s_serviceTick (s : ServicePtr) (w : World) :
    (EmblaOs.serviceTick s w).2.embla.host.wait4s = w.embla.host.wait4s := by
  refine serviceTick_preserves (I := fun v => v.embla.host.wait4s = w.embla.host.wait4s)
    (fun t v h => (wait4s_serviceStart t v).trans h) (fun t v h => ?_) (fun v h => h) (fun v t f _ h => h) s rfl
  rw [serviceReap_host]
  exact h

/-! ## The ticks of a round -/

/-- The ticks of one round, one for each of the services. -/
structure Swept (n : Nat) (services : List ServicePtr) (w w' : World) : Prop where
  inv : w'.Inv
  clock : w'.embla.host.clock = w.embla.host.clock.drop n
  wait4s : w'.embla.host.wait4s = w.embla.host.wait4s
  shape : SameShape w w'
  moves : ∀ s ∈ services, (w.service s).Move (w.Shows n) (w.Corpse s) (w'.service s)
  others : ∀ s, s ∉ services → w'.service s = w.service s
  clean : ∀ s, w'.Zombie s → w.Zombie s ∧ s ∉ services
  calm : ∀ s ∈ services, (w'.service s).restartPending = true → (w'.service s).state = .stopped

theorem Inv.superviseTicks : ∀ (services : List ServicePtr) (w : World), w.Inv → services.Nodup →
    (∀ s ∈ services, (w.service s).restartPending = true → (w.service s).state = .stopped) →
    ∃ n, Swept n services w (superviseTicks services w)
  | [], w, h, _, _ => ⟨0, h, rfl, rfl, fun _ => ⟨rfl, rfl⟩, fun _ hs => absurd hs List.not_mem_nil, fun _ _ => rfl,
      fun _ hz => ⟨hz, List.not_mem_nil⟩, fun _ hs => absurd hs List.not_mem_nil⟩
  | s :: rest, w, h, hnodup, hcalm => by
    obtain ⟨hs, hrest⟩ := List.nodup_cons.1 hnodup
    obtain ⟨n, htick⟩ := h.stepped_serviceTick s (hcalm s List.mem_cons_self)
    have hne : ∀ {t}, t ∈ rest → t ≠ s := by
      rintro t ht rfl
      exact hs ht
    obtain ⟨m, hsw⟩ := Inv.superviseTicks rest (EmblaOs.serviceTick s w).2 (h.serviceTick s) hrest fun t ht => by
      rw [serviceTick_other (hne ht)]
      exact hcalm t (List.mem_cons_of_mem _ ht)
    have hlater : (EmblaOs.superviseTicks (s :: rest) w).service s = (EmblaOs.serviceTick s w).2.service s := hsw.others s hs
    -- the readings of the first tick come before those of the others
    have hfirst : ∀ now, w.Shows n now → w.Shows (n + m) now := by
      rintro now ⟨i, hi, hnow⟩
      exact ⟨i, by omega, hnow⟩
    have hsecond : ∀ now, (EmblaOs.serviceTick s w).2.Shows m now → w.Shows (n + m) now := by
      rintro now ⟨i, hi, hnow⟩
      refine ⟨n + i, by omega, ?_⟩
      rw [← hnow, htick.clock, Stream'.get_drop]
    refine ⟨n + m, hsw.inv, ?_, hsw.wait4s.trans (wait4s_serviceTick s w), (serviceTick_shape s w).trans hsw.shape,
      fun t ht => ?_, fun t ht => ?_, fun t hz => ?_, fun t ht => ?_⟩
    · exact hsw.clock.trans (by rw [htick.clock, Stream'.drop_drop])
    · rcases List.mem_cons.1 ht with rfl | ht
      · rw [hlater]
        exact htick.move.imp hfirst fun _ => Iff.rfl
      · have hmove := hsw.moves t ht
        rw [serviceTick_other (hne ht)] at hmove
        exact hmove.imp hsecond fun r => h.corpse_serviceTick (hne ht) r
    · rw [List.mem_cons, not_or] at ht
      exact (hsw.others t ht.2).trans (serviceTick_other ht.1 w)
    · obtain ⟨hz, hnot⟩ := hsw.clean t hz
      have hts : t ≠ s := by
        rintro rfl
        exact htick.clean hz
      obtain ⟨r, hr⟩ := zombie_iff_corpse.1 hz
      refine ⟨zombie_iff_corpse.2 ⟨r, (h.corpse_serviceTick hts r).1 hr⟩, fun hc => ?_⟩
      rcases List.mem_cons.1 hc with rfl | hc
      · exact hts rfl
      · exact hnot hc
    · rcases List.mem_cons.1 ht with rfl | ht
      · rw [hlater]
        exact htick.calm
      · exact hsw.calm t ht

/-! ## The drains of a round -/

/-- A drain takes in an event exactly when the host has one. -/
theorem drainOneEvent_one (w : World) : w.drainOneEvent.1 = 1 ↔ ∃ event, w.embla.host.wait4s.head = .event event := by
  have hx : w.drainOneEvent.1 = (serviceRegistryDrainOneEvent w.embla).1 := rfl
  rw [hx]
  unfold serviceRegistryDrainOneEvent
  rw [executorPollAny_eq]
  cases hw : w.embla.host.wait4s.head with
  | event event => exact iff_of_true rfl ⟨event, rfl⟩
  | _ =>
    refine iff_of_false (by simp) ?_
    rintro ⟨event, ⟨⟩⟩

/-- The host has this many reports and then none. -/
def Reports (w : World) (count : Nat) : Prop :=
  (∀ i < count, ∃ event, w.embla.host.wait4s.get i = .event event) ∧ ∀ event, w.embla.host.wait4s.get count ≠ .event event

/-- The death of the process that the running service has is among the next so many reports. -/
def DyingWithin (w : World) (count : Nat) (s : ServicePtr) : Prop :=
  (w.service s).state = .running ∧ ∃ p, (w.service s).process = some p ∧ ∃ i < count, ∃ event,
    w.embla.host.wait4s.get i = .event event ∧ event.status.Death ∧
      processManagerGetByHostId w.embla.processHeap w.embla.processManager event.hostId.pid = some p

/-- The drains of one round: as many reports as there are have been taken in. -/
structure Drained (count : Nat) (w w' : World) : Prop where
  reports : w.Reports count
  wait4s : w'.embla.host.wait4s = w.embla.host.wait4s.drop (count + 1)
  clock : w'.embla.host.clock = w.embla.host.clock
  services : w'.services = w.services
  inv : w.Inv → w'.Inv
  zombie : w.Inv → ∀ s, w'.Zombie s ↔ w.Zombie s ∨ w.DyingWithin count s

theorem drainOneEvent_clock (w : World) : w.drainOneEvent.2.embla.host.clock = w.embla.host.clock := by
  rw [drainOneEvent_host]
  exact (Host.wait4_rest _).2.1

theorem drainOneEvent_wait4s (w : World) : w.drainOneEvent.2.embla.host.wait4s = w.embla.host.wait4s.tail := by
  rw [drainOneEvent_host]
  exact (Host.wait4_rest _).2.2.2.2.2.2

theorem drained_one (hno : ∀ event, w.embla.host.wait4s.head ≠ .event event) : Drained 0 w w.drainOneEvent.2 := by
  refine ⟨⟨fun i hi => absurd hi (Nat.not_lt_zero i), hno⟩, drainOneEvent_wait4s w, drainOneEvent_clock w, rfl,
    Inv.drainOneEvent, fun h s => ?_⟩
  rw [h.zombie_drain]
  refine or_congr_right (iff_of_false ?_ ?_)
  · rintro ⟨-, p, -, hd⟩
    exact Embla.not_dyingNext hno p hd
  · rintro ⟨-, p, -, i, hi, -⟩
    exact Nat.not_lt_zero i hi

/-- The lookup of a pid finds after a drain what it found before. -/
theorem getByHostId_drain (w : World) (pid : Int) :
    processManagerGetByHostId w.drainOneEvent.2.embla.processHeap w.drainOneEvent.2.embla.processManager pid =
      processManagerGetByHostId w.embla.processHeap w.embla.processManager pid := by
  have hd := Embla.drain_handled w.embla
  have hm : w.drainOneEvent.2.embla.processManager = w.embla.processManager := hd.manager
  have hid : ∀ p, (w.drainOneEvent.2.embla.processHeap.read p).hostId = (w.embla.processHeap.read p).hostId := hd.hostId
  unfold processManagerGetByHostId
  simp only [hm, hid]

theorem Drained.succ {count : Nat} {event : ChildEvent} (hw : w.embla.host.wait4s.head = .event event)
    (h : Drained count w.drainOneEvent.2 w') : Drained (count + 1) w w' := by
  have hwait := drainOneEvent_wait4s w
  obtain ⟨hreports, hsilent⟩ := h.reports
  rw [hwait] at hreports hsilent
  refine ⟨⟨fun i hi => ?_, hsilent⟩, ?_, h.clock.trans (drainOneEvent_clock w), h.services,
    fun hinv => h.inv hinv.drainOneEvent, fun hinv s => ?_⟩
  · cases i with
    | zero => exact ⟨event, hw⟩
    | succ i => exact hreports i (Nat.lt_of_succ_lt_succ hi)
  · rw [h.wait4s, hwait]
    rfl
  · -- the first report, and then the others
    rw [h.zombie hinv.drainOneEvent, hinv.zombie_drain, or_assoc]
    refine or_congr_right ?_
    unfold DyingWithin DyingNext Embla.DyingNext
    rw [hwait]
    simp only [getByHostId_drain]
    constructor
    · rintro (⟨hst, p, hp, event', hw', hd, hget⟩ | ⟨hst, p, hp, i, hi, hrest⟩)
      · exact ⟨hst, p, hp, 0, Nat.succ_pos _, event', hw', hd, hget⟩
      · exact ⟨hst, p, hp, i + 1, Nat.succ_lt_succ hi, hrest⟩
    · rintro ⟨hst, p, hp, i, hi, event', hw', hrest⟩
      cases i with
      | zero => exact .inl ⟨hst, p, hp, event', hw', hrest⟩
      | succ i => exact .inr ⟨hst, p, hp, i, Nat.lt_of_succ_lt_succ hi, event', hw', hrest⟩

theorem superviseDrain_drained : ∀ (fuel : Nat) (w : World), superviseDrain fuel w = some w' → ∃ count, Drained count w w'
  | 0, _, hx => by cases hx
  | fuel + 1, w, hx => by
    unfold superviseDrain at hx
    simp only at hx
    split at hx
    · rename_i hone
      obtain ⟨event, hw⟩ := (drainOneEvent_one w).1 hone
      obtain ⟨count, hd⟩ := superviseDrain_drained fuel _ hx
      exact ⟨count + 1, hd.succ hw⟩
    · rename_i hone
      cases hx
      exact ⟨0, drained_one fun event hw => hone ((drainOneEvent_one w).2 ⟨event, hw⟩)⟩

/-- One drain for each report and one more is enough. -/
theorem superviseDrain_returns : ∀ (count fuel : Nat) (w : World), w.Reports count → count < fuel →
    ∃ w', superviseDrain fuel w = some w'
  | _, 0, _, _, hlt => by omega
  | 0, fuel + 1, w, hr, _ => by
    refine ⟨w.drainOneEvent.2, ?_⟩
    unfold superviseDrain
    simp only
    rw [if_neg]
    rw [drainOneEvent_one]
    rintro ⟨event, hw⟩
    exact hr.2 event hw
  | count + 1, fuel + 1, w, hr, hlt => by
    obtain ⟨event, hw⟩ := hr.1 0 (Nat.succ_pos _)
    have hrest : w.drainOneEvent.2.Reports count := by
      unfold Reports
      rw [drainOneEvent_wait4s]
      exact ⟨fun i hi => hr.1 (i + 1) (Nat.succ_lt_succ hi), hr.2⟩
    obtain ⟨w', hx⟩ := superviseDrain_returns count fuel _ hrest (Nat.lt_of_succ_lt_succ hlt)
    refine ⟨w', ?_⟩
    unfold superviseDrain
    simp only
    rw [if_pos ((drainOneEvent_one w).2 ⟨event, hw⟩)]
    exact hx

theorem superviseDrain_mono : ∀ (fuel fuel' : Nat) (w : World), fuel ≤ fuel' → superviseDrain fuel w = some w' →
    superviseDrain fuel' w = some w'
  | 0, _, _, _, hx => by cases hx
  | fuel + 1, 0, _, hle, _ => by omega
  | fuel + 1, fuel' + 1, w, hle, hx => by
    unfold superviseDrain at hx ⊢
    simp only at hx ⊢
    split at hx
    · rename_i hone
      rw [if_pos hone]
      exact superviseDrain_mono fuel fuel' _ (Nat.le_of_succ_le_succ hle) hx
    · rename_i hone
      rw [if_neg hone]
      exact hx

/-! ## The rounds -/

/-- One round. It takes in the reports up to the first silence of the host, with `v` the world after,
and then every service of the registry makes its move and none is left a zombie. -/
structure Round (registry : ServiceRegistry) (w w' : World) : Prop where
  moves : ∃ count readings v, Drained count w v ∧
    w'.embla.host.wait4s = w.embla.host.wait4s.drop (count + 1) ∧
    w'.embla.host.clock = w.embla.host.clock.drop readings ∧
    ∀ s ∈ registry.services, (w.service s).Move (w.Shows readings) (v.Corpse s) (w'.service s)
  others : ∀ s, s ∉ registry.services → w'.service s = w.service s
  clean : ∀ s ∈ registry.services, ¬ w'.Zombie s
  shape : SameShape w w'

/-- What the rounds rest on. -/
structure Steady (registry : ServiceRegistry) (w : World) : Prop where
  inv : w.Inv
  nodup : registry.services.Nodup
  calm : Calm registry w

theorem Steady.round (h : Steady registry w) {fuel : Nat} {v : World} (hx : superviseDrain fuel w = some v) :
    Round registry w (superviseTicks registry.services v) ∧ Steady registry (superviseTicks registry.services v) := by
  obtain ⟨count, hd⟩ := superviseDrain_drained fuel w hx
  have hservice : ∀ s, v.service s = w.service s := fun s => congrArg (fun heap => Heap.read heap s) hd.services
  obtain ⟨n, hsw⟩ := Inv.superviseTicks registry.services v (hd.inv h.inv) h.nodup fun s hs => by
    rw [hservice]
    exact h.calm s hs
  have hshows : ∀ now, v.Shows n now → w.Shows n now := by
    unfold Shows
    rw [hd.clock]
    exact fun _ => id
  refine ⟨⟨⟨count, n, v, hd, hsw.wait4s.trans hd.wait4s, hsw.clock.trans (by rw [hd.clock]), fun s hs => ?_⟩,
    fun s hs => (hsw.others s hs).trans (hservice s), fun s hs hz => (hsw.clean s hz).2 hs, ?_⟩,
    hsw.inv, h.nodup, hsw.calm⟩
  · have hmove := hsw.moves s hs
    rw [hservice] at hmove
    exact hmove.imp hshows fun _ => Iff.rfl
  · intro s
    rw [← hservice]
    exact hsw.shape s

theorem superviseLooks_head {shutdown : Nat → Bool} {fuel : Nat} (rounds round : Nat) (w : World) :
    ∀ v ∈ (superviseLooks registry shutdown fuel rounds round w).head?, v = w := by
  intro v hv
  cases rounds with
  | zero => cases hv
  | succ rounds =>
    cases hv
    rfl

/-- From each look at the condition to the next there is a round. -/
theorem Steady.looks {shutdown : Nat → Bool} {fuel : Nat} : ∀ (rounds round : Nat) (w : World), Steady registry w →
    (superviseLooks registry shutdown fuel rounds round w).IsChain (Round registry)
  | 0, _, _, _ => .nil
  | rounds + 1, round, w, h => by
    unfold superviseLooks
    split
    · exact .singleton w
    rcases hd : superviseDrain fuel w with _ | v
    · exact .singleton w
    obtain ⟨hround, hsteady⟩ := h.round hd
    refine List.isChain_cons.2 ⟨fun v' hv' => ?_, Steady.looks rounds (round + 1) _ hsteady⟩
    rw [superviseLooks_head _ _ _ v' hv']
    exact hround

/-- The loop ends in the first look at which shutdown has been requested. -/
theorem superviseLoop_last {shutdown : Nat → Bool} {fuel : Nat} {v : World} : ∀ (rounds round : Nat) (w : World),
    Steady registry w → superviseLoop registry shutdown fuel rounds round w = some v →
    (Steady registry v ∧ SameShape w v) ∧ (superviseLooks registry shutdown fuel rounds round w).getLast? = some v ∧
      ∃ n, (superviseLooks registry shutdown fuel rounds round w).length = n + 1 ∧ shutdown (round + n) = true ∧
        ∀ i < n, shutdown (round + i) = false
  | 0, _, _, _, hx => by cases hx
  | rounds + 1, round, w, h, hx => by
    unfold superviseLoop at hx
    unfold superviseLooks
    by_cases hs : shutdown round = true
    · rw [if_pos hs] at hx
      cases hx
      rw [if_pos hs]
      exact ⟨⟨h, fun _ => ⟨rfl, rfl⟩⟩, rfl, 0, rfl, hs, fun i hi => absurd hi (Nat.not_lt_zero i)⟩
    rw [if_neg hs] at hx ⊢
    rcases hd : superviseDrain fuel w with _ | u <;> rw [hd] at hx
    · cases hx
    obtain ⟨hround, hsteady⟩ := h.round hd
    obtain ⟨⟨hv, hshape⟩, hlast, n, hlen, hstop, hgo⟩ := superviseLoop_last rounds (round + 1) _ hsteady hx
    refine ⟨⟨hv, hround.shape.trans hshape⟩, ?_, n + 1, by rw [List.length_cons, hlen], ?_, fun i hi => ?_⟩
    · rw [List.getLast?_cons, hlast]
      rfl
    · rw [← hstop]
      congr 1
      omega
    · cases i with
      | zero => exact Bool.eq_false_of_not_eq_true hs
      | succ i =>
        rw [← hgo i (Nat.lt_of_succ_lt_succ hi)]
        congr 1
        omega

/-! ## The call returns -/

end World

/-- The host has nothing to report, again and again. -/
def Host.FallsSilent (host : Host) : Prop := ∀ n, ∃ m, n ≤ m ∧ ∀ event, host.wait4s.get m ≠ .event event

theorem Host.FallsSilent.drop {host host' : Host} (h : host.FallsSilent)
    (hwait : ∃ n, host'.wait4s = host.wait4s.drop n) : host'.FallsSilent := by
  obtain ⟨k, hk⟩ := hwait
  intro n
  obtain ⟨m, hm, hno⟩ := h (n + k)
  refine ⟨m - k, by omega, ?_⟩
  rw [hk, Stream'.get_drop, Nat.add_sub_of_le (by omega)]
  exact hno

namespace World

variable {registry : ServiceRegistry} {w w' : World}

theorem exists_reports (h : w.embla.host.FallsSilent) : ∃ count, w.Reports count := by
  classical
  have hex : ∃ m, ∀ event, w.embla.host.wait4s.get m ≠ .event event := by
    obtain ⟨m, -, hm⟩ := h 0
    exact ⟨m, hm⟩
  refine ⟨Nat.find hex, fun i hi => ?_, Nat.find_spec hex⟩
  have hlt := Nat.find_min hex hi
  push Not at hlt
  exact hlt

/-- Enough rounds with enough drains each take the loop to the round of the request. -/
theorem superviseLoop_returns {shutdown : Nat → Bool} : ∀ (n round : Nat) (w : World), Steady registry w →
    w.embla.host.FallsSilent → w.embla.host.ClockAdvances → shutdown (round + n) = true →
    ∃ v enough, v.embla.host.ClockAdvances ∧ ∀ fuel rounds, enough ≤ fuel → enough ≤ rounds →
      superviseLoop registry shutdown fuel rounds round w = some v
  | n, round, _, h, hsilent, hclock, hstop => by
    by_cases hs : shutdown round = true
    · refine ⟨_, 1, hclock, fun fuel rounds _ hrounds => ?_⟩
      cases rounds with
      | zero => omega
      | succ rounds =>
        unfold superviseLoop
        rw [if_pos hs]
    cases n with
    | zero => exact absurd hstop hs
    | succ n =>
      obtain ⟨count, hr⟩ := exists_reports hsilent
      obtain ⟨u, hd⟩ := superviseDrain_returns count (count + 1) _ hr (Nat.lt_succ_self count)
      obtain ⟨hround, hsteady⟩ := h.round hd
      obtain ⟨count', readings, -, -, hwait, hclock', -⟩ := hround.moves
      obtain ⟨v, enough, hv, hloop⟩ := superviseLoop_returns n (round + 1) _ hsteady (hsilent.drop ⟨_, hwait⟩)
        (hclock.drop ⟨_, hclock'⟩) (by rw [← hstop]; congr 1; omega)
      refine ⟨v, max (count + 1) (enough + 1), hv, fun fuel rounds hfuel hrounds => ?_⟩
      cases rounds with
      | zero => omega
      | succ rounds =>
        unfold superviseLoop
        rw [if_neg hs, superviseDrain_mono _ _ _ (le_trans (le_max_left ..) hfuel) hd]
        exact hloop fuel rounds (by omega) (by omega)

/-! ## Starting -/

theorem startEach_pending (s : ServicePtr) : ∀ (l : List ServicePtr) (w : World),
    ((startEach l w).service s).restartPending = (w.service s).restartPending
  | [], _ => rfl
  | t :: rest, w => by
    refine (startEach_pending s rest _).trans ?_
    rcases eq_or_ne s t with rfl | hne
    · rcases serviceStart_self s w with ⟨-, hx⟩ | ⟨-, -, p, now, hx⟩ <;> rw [hx]
      rfl
    · rw [serviceStart_other hne]

theorem startEach_wait4s : ∀ (l : List ServicePtr) (w : World),
    (startEach l w).embla.host.wait4s = w.embla.host.wait4s
  | [], _ => rfl
  | t :: rest, w => (startEach_wait4s rest _).trans (wait4s_serviceStart t w)

theorem startEach_clock : ∀ (l : List ServicePtr) (w : World),
    ∃ n, (startEach l w).embla.host.clock = w.embla.host.clock.drop n
  | [], _ => ⟨0, rfl⟩
  | t :: rest, w => by
    obtain ⟨m, hm⟩ := startEach_clock rest (EmblaOs.serviceStart t w).2
    have hone : ∃ n, (EmblaOs.serviceStart t w).2.embla.host.clock = w.embla.host.clock.drop n := by
      have hcalls := emblaSpawn_calls (w.service t).name w.embla
      rcases serviceStart_cases t w with ⟨-, hx⟩ | ⟨-, e, he, hx⟩ | ⟨-, p, e, he, hx⟩ <;> rw [hx]
      · exact ⟨0, rfl⟩
      · rw [he] at hcalls
        exact ⟨0, hcalls.kept.2.2⟩
      · rw [he] at hcalls
        exact ⟨1, congrArg Stream'.tail hcalls.kept.2.2⟩
    obtain ⟨n, hn⟩ := hone
    exact ⟨n + m, hm.trans (by rw [hn, Stream'.drop_drop])⟩

theorem inv_startEach : ∀ (l : List ServicePtr) (w : World), w.Inv → (startEach l w).Inv
  | [], _, h => h
  | s :: rest, _, h => inv_startEach rest _ (h.serviceStart s)

/-- The start, when there is an order: it does not fail, and the rounds begin in a steady world. -/
theorem Steady.startAll (h : Steady registry w) (hreg : registry.Inv w.services)
    (hpending : ∀ s ∈ registry.services, (w.service s).restartPending = false) (hok : w.Orderable registry) :
    ∃ started w₁, serviceRegistryStartAll registry w = some (started, w₁) ∧ 0 ≤ started ∧ Steady registry w₁ ∧
      SameShape w w₁ ∧ w₁.embla.host.wait4s = w.embla.host.wait4s ∧
      ∃ n, w₁.embla.host.clock = w.embla.host.clock.drop n := by
  unfold serviceRegistryStartAll
  by_cases hnil : registry.services = []
  · rw [if_pos (serviceRegistryCount_eq_zero.2 hnil)]
    exact ⟨0, w, rfl, le_refl _, h, fun _ => ⟨rfl, rfl⟩, rfl, 0, rfl⟩
  rw [if_neg fun hc => hnil (serviceRegistryCount_eq_zero.1 hc)]
  obtain ⟨allocs, ⟨-, order, horder, hx⟩ | ⟨hno, -⟩⟩ := World.startOrder_spec hreg hnil
  swap
  · exact absurd hok hno
  rw [hx]
  have hcount := startAllLoop_count registry order 0 (w.withAllocs allocs) horder.nodup
  have hworld := startAllLoop_world registry order 0 (w.withAllocs allocs)
  refine ⟨_, _, rfl, by rw [hcount]; omega, ?_⟩
  rw [hworld]
  have hinv : (w.withAllocs allocs).Inv := h.inv.onlyHost ⟨_, rfl⟩
  refine ⟨⟨inv_startEach _ _ hinv, h.nodup, fun s hs hp => ?_⟩, startEach_shape _ (w.withAllocs allocs),
    startEach_wait4s _ (w.withAllocs allocs), startEach_clock _ (w.withAllocs allocs)⟩
  rw [startEach_pending, show ((w.withAllocs allocs).service s).restartPending = false from hpending s hs] at hp
  cases hp

end World

/-! ## The whole call -/

section Supervise

variable {registry : ServiceRegistry} {w : World}

/-- Without an order the supervisor gives up before its first round. Otherwise its looks at the
condition are a round apart, however long it goes on; it goes on to the first look at which shutdown
has been requested and returns the number of services that the stop from there on stopped; and it
returns if the host falls silent again and again and time goes on. -/
theorem supervise_rounds (h : w.Inv) (hreg : registry.Reachable w.services)
    (hpending : ∀ s ∈ registry.services, (w.service s).restartPending = false) (stopTimeoutSeconds : ℚ)
    (shutdown : Nat → Bool) :
    (¬ w.Orderable registry → ∃ allocs, ∀ fuel,
      serviceRegistrySupervise registry stopTimeoutSeconds shutdown fuel w = some (-1, w.withAllocs allocs)) ∧
    (w.Orderable registry → ∃ started w₁, serviceRegistryStartAll registry w = some (started, w₁) ∧
      (∀ fuel, (superviseLooks registry shutdown fuel fuel 0 w₁).IsChain (World.Round registry)) ∧
      (∀ fuel result w', serviceRegistrySupervise registry stopTimeoutSeconds shutdown fuel w = some (result, w') →
        ∃ v rounds, (superviseLooks registry shutdown fuel fuel 0 w₁).getLast? = some v ∧
          (superviseLooks registry shutdown fuel fuel 0 w₁).length = rounds + 1 ∧ shutdown rounds = true ∧
          (∀ i < rounds, shutdown i = false) ∧
          ((∀ i < 3, v.embla.host.allocs.get i = true) →
            result = registry.services.countP fun s => (v.service s).state = .running ∧ (w'.service s).state = .stopped)) ∧
      (w.embla.host.FallsSilent → w.embla.host.ClockAdvances → ∀ n, shutdown n = true → ∃ fuel, ∀ fuel', fuel ≤ fuel' →
        ∃ result, serviceRegistrySupervise registry stopTimeoutSeconds shutdown fuel' w = some result)) := by
  constructor
  · intro hno
    have hnil : registry.services ≠ [] := fun hc => hno (.inl hc)
    obtain ⟨allocs, ⟨hok, -⟩ | ⟨-, hx⟩⟩ := World.startOrder_spec hreg.inv hnil
    · exact absurd hok hno
    refine ⟨allocs, fun fuel => ?_⟩
    unfold serviceRegistrySupervise serviceRegistryStartAll
    rw [if_neg fun hc => hnil (serviceRegistryCount_eq_zero.1 hc), hx]
    rfl
  intro hok
  have hsteady : World.Steady registry w := ⟨h, hreg.inv.nodup, fun s hs hp => by
    rw [hpending s hs] at hp
    cases hp⟩
  obtain ⟨started, w₁, hstart, hnonneg, hsteady₁, hshape, hwait, hclock⟩ := hsteady.startAll hreg.inv hpending hok
  have hx : ∀ fuel, serviceRegistrySupervise registry stopTimeoutSeconds shutdown fuel w =
      match superviseLoop registry shutdown fuel fuel 0 w₁ with
      | none => none
      | some v => serviceRegistryStopAll registry stopTimeoutSeconds fuel v := by
    intro fuel
    unfold serviceRegistrySupervise
    rw [hstart]
    exact if_neg (not_lt.2 hnonneg)
  -- the names are as they were, so the registry is in order at every look, and so are the dependencies
  have hlast : ∀ {v}, World.SameShape w₁ v → registry.Inv v.services ∧
      DependenciesRegistered v.services registry ∧ DependenciesAcyclic v.services registry := fun hv =>
    ⟨(hshape.trans hv).inv hreg.inv, (hshape.trans hv).ordered hok.dependencies⟩
  refine ⟨started, w₁, hstart, fun fuel => hsteady₁.looks fuel 0 w₁, fun fuel result w' hret => ?_,
    fun hsilent hadvance n hn => ?_⟩
  · rw [hx] at hret
    rcases hloop : superviseLoop registry shutdown fuel fuel 0 w₁ with _ | v <;> rw [hloop] at hret
    · cases hret
    obtain ⟨⟨-, hv⟩, hend, rounds, hlen, hstop, hgo⟩ := World.superviseLoop_last fuel 0 w₁ hsteady₁ hloop
    simp only [Nat.zero_add] at hstop hgo
    refine ⟨v, rounds, hend, hlen, hstop, hgo, fun hmem => ?_⟩
    obtain ⟨hinv, hdeps⟩ := hlast hv
    rw [(stopAll_done hinv stopTimeoutSeconds (.inr ⟨hmem, hdeps⟩) hret).counts, zero_add]
  · have hsilent₁ : w₁.embla.host.FallsSilent := hsilent.drop ⟨0, hwait⟩
    have hn' : shutdown (0 + n) = true := (congrArg shutdown (Nat.zero_add n)).trans hn
    obtain ⟨v, enough, hadvance', hloop⟩ := World.superviseLoop_returns n 0 w₁ hsteady₁ hsilent₁ (hadvance.drop hclock) hn'
    obtain ⟨⟨-, hv⟩, -⟩ := World.superviseLoop_last enough 0 w₁ hsteady₁ (hloop enough enough (le_refl _) (le_refl _))
    by_cases hokv : v.Orderable registry
    · obtain ⟨fuel, hfuel⟩ := stopAll_returns (hlast hv).1 stopTimeoutSeconds hokv hadvance'
      refine ⟨max enough fuel, fun fuel' hle => ?_⟩
      rw [hx, hloop fuel' fuel' (le_trans (le_max_left ..) hle) (le_trans (le_max_left ..) hle)]
      exact hfuel fuel' (le_trans (le_max_right ..) hle)
    · obtain ⟨allocs, hstopx⟩ := stopAll_unorderable (hlast hv).1 stopTimeoutSeconds hokv
      refine ⟨enough, fun fuel' hle => ⟨(-1, v.withAllocs allocs), ?_⟩⟩
      rw [hx, hloop fuel' fuel' hle hle]
      exact hstopx fuel'

end Supervise

/-- Both services exit in the first round; shutdown is requested after the second. -/
theorem supervise_rounds_exiting : ∃ w₁, serviceRegistryStartAll webAndDbRegistry webAndDbExiting = some (2, w₁) ∧
    (superviseLooks webAndDbRegistry (fun round => decide (2 ≤ round)) 10 10 0 w₁).IsChain (World.Round webAndDbRegistry) ∧
    (superviseLooks webAndDbRegistry (fun round => decide (2 ≤ round)) 10 10 0 w₁).length = 3 := by
  have horder : (webAndDbExiting.startOrder webAndDbRegistry).map Prod.fst = some (some [1, 0]) := by decide +kernel
  have hok := World.orderable_of_order webAndDbRegistry_reachable.inv horder
  have hinv : webAndDbExiting.Inv := (webAndDbWith_fresh _).inv
  obtain ⟨started, w₁, hstart, hlooks, -⟩ := (supervise_rounds hinv webAndDbRegistry_reachable
    (by decide +kernel) 5 fun round => decide (2 ≤ round)).2 hok
  rw [webAndDbStarted_eq] at hstart
  cases hstart
  exact ⟨webAndDbStarted, webAndDbStarted_eq, hlooks 10, by decide +kernel⟩

/-! ## No restart is forgotten -/

section Attempts

variable {registry : ServiceRegistry} {w : World} {s : ServicePtr}

/-- The restart of the service was tried: it runs a new instance, or it is left with nothing pending. -/
def Service.Attempted (r r' : Service) : Prop :=
  r' = serviceSetRestartPending r false ∨ ∃ p start, r' = (serviceSetRestartPending r false).launched p start

/-- A round with a restart pending tries it, or it read a time that was too early. -/
theorem Service.Move.pending {Read : ℚ → Prop} {Dead : Process → Prop} {r r' : Service} (h : r.Move Read Dead r')
    (hp : r.restartPending = true) : r.Attempted r' ∨ r' = r ∧ ∃ now, Read now ∧ now < r.restartAllowedAt := by
  have hnot : ¬ r.restartPending = false := fun hc => by
    rw [hp] at hc
    cases hc
  cases h with
  | idle hno => exact absurd hno hnot
  | settled hno => exact absurd hno hnot
  | scheduled hno => exact absurd hno hnot
  | waiting _ hnow hlt => exact .inr ⟨rfl, _, hnow, hlt⟩
  | failed => exact .inl (.inl rfl)
  | restarted _ _ _ p => exact .inl (.inr ⟨p, _, rfl⟩)

end Attempts

end EmblaOs
