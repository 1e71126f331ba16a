/-
Starting, stopping, killing and reaping one service (service_lifecycle.c), on a world that holds
the runtime and all service records. The world also keeps the calls made so far, each with what it
found and what it returned; no function reads them, they are there for statements about runs.
-/
import EmblaOs.Service.Registry

namespace EmblaOs

open Lib

inductive ServiceCall
  | start
  | stop
  | kill
  | reap
  deriving DecidableEq, Repr

/-- A call of one of the four functions: the record and the runtime it found, and its result. -/
structure CallRecord where
  call : ServiceCall
  service : ServicePtr
  before : Service
  embla : Embla
  result : Int

/-- The calls are listed latest first. -/
structure World where
  embla : Embla
  services : Heap Service
  calls : List CallRecord

namespace World

def service (w : World) (s : ServicePtr) : Service := w.services.read s

def modifyService (w : World) (s : ServicePtr) (f : Service → Service) : World :=
  { w with services := w.services.modify s f }

def withEmbla (w : World) (e : Embla) : World := { w with embla := e }

/-- `service_monotonic_now`. A reading is a rational where the source has a double. It is compared once, with
an earlier one, and stands for whatever that comparison gives on the rounded doubles. -/
def monotonicNow (w : World) : ℚ × World :=
  let (now, host) := w.embla.host.monotonicNow
  (now, w.withEmbla { w.embla with host := host })

/-- `w'` with the entry for a call made in `w`. -/
def logged (call : ServiceCall) (s : ServicePtr) (w : World) (result : Int) (w' : World) : World :=
  { w' with calls := ⟨call, s, w.service s, w.embla, result⟩ :: w'.calls }

/-- A call with its entry in the list of calls. -/
def recorded (call : ServiceCall) (s : ServicePtr) (body : World → Int × World) (w : World) : Int × World :=
  ((body w).1, logged call s w (body w).1 (body w).2)

end World

/-- The fields `service_start` writes after a successful spawn. -/
def Service.launched (process : ProcessPtr) (now : ℚ) (service : Service) : Service :=
  { service with process := some process, lastStartTime := now, permanentlyFailed := false, state := .running }

def serviceStart (service : ServicePtr) : World → Int × World :=
  World.recorded .start service fun w =>
    if (w.service service).state ≠ .stopped then (-1, w)
    else
      match emblaSpawn (w.service service).name w.embla with
      | (none, e) => (-1, w.withEmbla e)
      | (some process, e) =>
        let (now, w) := (w.withEmbla e).monotonicNow
        (0, w.modifyService service (Service.launched process now))

def serviceStop (service : ServicePtr) : World → Int × World :=
  World.recorded .stop service fun w =>
    if (w.service service).state ≠ .running then (-1, w)
    else
      match (w.service service).process with
      | none => (-1, w)
      | some process =>
        let w := w.modifyService service fun s => serviceSetStopRequested s true
        let (result, e) := emblaTerminate process w.embla
        (result, w.withEmbla e)

def serviceKill (service : ServicePtr) : World → Int × World :=
  World.recorded .kill service fun w =>
    if (w.service service).state ≠ .running then (-1, w)
    else
      match (w.service service).process with
      | none => (-1, w)
      | some process =>
        let (result, e) := emblaKill process w.embla
        (result, w.withEmbla e)

/-- What the last instance ended with is written before the process is reaped. -/
def Service.ended (process : Process) (service : Service) : Service :=
  { service with lastExitCode := process.exitCode, lastTermSignal := process.termSignal }

def serviceReap (service : ServicePtr) : World → Int × World :=
  World.recorded .reap service fun w =>
    if (w.service service).state ≠ .running then (0, w)
    else
      match (w.service service).process with
      | none => (-1, w)
      | some process =>
        if (w.embla.process process).state ≠ .terminated then (0, w)
        else
          let w := w.modifyService service (Service.ended (w.embla.process process))
          let (result, e) := emblaReapProcess (w.embla.process process).id w.embla
          let w := w.withEmbla e
          if result ≠ 0 then (-1, w)
          else (1, w.modifyService service fun s => { s with process := none, state := .stopped })

/-! ## Reading a changed world -/

namespace World

@[simp] theorem service_modifyService_self (w : World) (s : ServicePtr) (f : Service → Service) :
    (w.modifyService s f).service s = f (w.service s) := Heap.read_modify_self ..

theorem service_modifyService_of_ne (w : World) {s t : ServicePtr} (f : Service → Service) (h : t ≠ s) :
    (w.modifyService s f).service t = w.service t := Heap.read_modify_of_ne _ _ h

/-- Writes to one record join into one. -/
theorem modifyService_modifyService (w : World) (s : ServicePtr) (f g : Service → Service) :
    (w.modifyService s f).modifyService s g = w.modifyService s fun r => g (f r) := by
  simp only [modifyService, Heap.modify_modify]

theorem modifyService_congr (w : World) {s : ServicePtr} {f g : Service → Service}
    (h : f (w.service s) = g (w.service s)) : w.modifyService s f = w.modifyService s g := by
  simp only [modifyService, Heap.modify_congr _ h]

@[simp] theorem embla_modifyService (w : World) (s : ServicePtr) (f : Service → Service) :
    (w.modifyService s f).embla = w.embla := rfl

@[simp] theorem calls_modifyService (w : World) (s : ServicePtr) (f : Service → Service) :
    (w.modifyService s f).calls = w.calls := rfl

@[simp] theorem service_withEmbla (w : World) (e : Embla) (s : ServicePtr) : (w.withEmbla e).service s = w.service s := rfl

@[simp] theorem embla_withEmbla (w : World) (e : Embla) : (w.withEmbla e).embla = e := rfl

@[simp] theorem calls_withEmbla (w : World) (e : Embla) : (w.withEmbla e).calls = w.calls := rfl

@[simp] theorem service_logged (call : ServiceCall) (s : ServicePtr) (w : World) (result : Int) (w' : World)
    (t : ServicePtr) : (logged call s w result w').service t = w'.service t := rfl

@[simp] theorem embla_logged (call : ServiceCall) (s : ServicePtr) (w : World) (result : Int) (w' : World) :
    (logged call s w result w').embla = w'.embla := rfl

@[simp] theorem calls_logged (call : ServiceCall) (s : ServicePtr) (w : World) (result : Int) (w' : World) :
    (logged call s w result w').calls = ⟨call, s, w.service s, w.embla, result⟩ :: w'.calls := rfl

end World

/-! ## What each call does -/

/-- `e` with the clock read once. -/
def Embla.ticked (e : Embla) : Embla := { e with host := e.host.monotonicNow.2 }

theorem World.monotonicNow_eq (w : World) : w.monotonicNow = (w.embla.host.clock.head, w.withEmbla w.embla.ticked) := rfl

theorem serviceStart_cases (s : ServicePtr) (w : World) :
    ((w.service s).state ≠ .stopped ∧ serviceStart s w = (-1, .logged .start s w (-1) w)) ∨
    ((w.service s).state = .stopped ∧ ∃ e, emblaSpawn (w.service s).name w.embla = (none, e) ∧
      serviceStart s w = (-1, .logged .start s w (-1) (w.withEmbla e))) ∨
    ((w.service s).state = .stopped ∧ ∃ p e, emblaSpawn (w.service s).name w.embla = (some p, e) ∧
      serviceStart s w = (0, .logged .start s w 0
        ((w.withEmbla e.ticked).modifyService s (Service.launched p e.host.clock.head)))) := by
  unfold serviceStart World.recorded
  by_cases hst : (w.service s).state = .stopped
  · right
    simp only [hst, ne_eq, not_true_eq_false, if_false]
    rcases hsp : emblaSpawn (w.service s).name w.embla with ⟨_ | p, e⟩
    · exact .inl ⟨trivial, e, rfl, rfl⟩
    · exact .inr ⟨trivial, p, e, rfl, rfl⟩
  · left
    simp only [hst, ne_eq, not_false_eq_true, if_true]
    exact ⟨trivial, trivial⟩

/-- A stop either finds no running instance or leaves the request and at most signals. -/
theorem serviceStop_cases (s : ServicePtr) (w : World) :
    (((w.service s).state ≠ .running ∨ (w.service s).process = none) ∧
      serviceStop s w = (-1, .logged .stop s w (-1) w)) ∨
    ((w.service s).state = .running ∧ ∃ p, (w.service s).process = some p ∧
      serviceStop s w = ((emblaTerminate p w.embla).1, .logged .stop s w (emblaTerminate p w.embla).1
        ((w.modifyService s fun r => serviceSetStopRequested r true).withEmbla (emblaTerminate p w.embla).2))) := by
  unfold serviceStop World.recorded
  by_cases hst : (w.service s).state = .running
  · simp only [hst, ne_eq, not_true_eq_false, if_false]
    cases hp : (w.service s).process with
    | none => exact .inl ⟨.inr rfl, rfl⟩
    | some p => exact .inr ⟨trivial, p, rfl, rfl⟩
  · left
    simp only [hst, ne_eq, not_false_eq_true, if_true]
    exact ⟨.inl trivial, trivial⟩

theorem serviceKill_cases (s : ServicePtr) (w : World) :
    (((w.service s).state ≠ .running ∨ (w.service s).process = none) ∧
      serviceKill s w = (-1, .logged .kill s w (-1) w)) ∨
    ((w.service s).state = .running ∧ ∃ p, (w.service s).process = some p ∧
      serviceKill s w = ((emblaKill p w.embla).1, .logged .kill s w (emblaKill p w.embla).1
        (w.withEmbla (emblaKill p w.embla).2))) := by
  unfold serviceKill World.recorded
  by_cases hst : (w.service s).state = .running
  · simp only [hst, ne_eq, not_true_eq_false, if_false]
    cases hp : (w.service s).process with
    | none => exact .inl ⟨.inr rfl, rfl⟩
    | some p => exact .inr ⟨trivial, p, rfl, rfl⟩
  · left
    simp only [hst, ne_eq, not_false_eq_true, if_true]
    exact ⟨.inl trivial, trivial⟩

/-- The record of a service whose instance `process` has been reaped. -/
def Service.reaped (process : Process) (service : Service) : Service :=
  { service.ended process with process := none, state := .stopped }

/-- A reap leaves the world alone, fails on the process, or ends the instance. -/
theorem serviceReap_cases (s : ServicePtr) (w : World) :
    (∃ r ≤ 0, serviceReap s w = (r, .logged .reap s w r w) ∧
      (r < 0 → (w.service s).state = .running ∧ (w.service s).process = none) ∧
      (r = 0 → (w.service s).state ≠ .running ∨
        ∃ p, (w.service s).process = some p ∧ (w.embla.process p).state ≠ .terminated)) ∨
    ∃ p, (w.service s).state = .running ∧ (w.service s).process = some p ∧ (w.embla.process p).state = .terminated ∧
      (((emblaReapProcess (w.embla.process p).id w.embla).1 ≠ 0 ∧
        serviceReap s w = (-1, .logged .reap s w (-1)
          ((w.modifyService s (Service.ended (w.embla.process p))).withEmbla
            (emblaReapProcess (w.embla.process p).id w.embla).2))) ∨
      ((emblaReapProcess (w.embla.process p).id w.embla).1 = 0 ∧
        serviceReap s w = (1, .logged .reap s w 1
          ((w.modifyService s (Service.reaped (w.embla.process p))).withEmbla
            (emblaReapProcess (w.embla.process p).id w.embla).2)))) := by
  unfold serviceReap World.recorded
  by_cases hst : (w.service s).state = .running
  · simp only [hst, ne_eq, not_true_eq_false, if_false]
    cases hp : (w.service s).process with
    | none => exact .inl ⟨-1, by decide, rfl, fun _ => ⟨trivial, rfl⟩, fun hc => absurd hc (by decide)⟩
    | some p =>
      by_cases hdead : (w.embla.process p).state = .terminated
      · right
        refine ⟨p, trivial, rfl, hdead, ?_⟩
        simp only [hdead, not_true_eq_false, if_false]
        by_cases hr : (emblaReapProcess (w.embla.process p).id w.embla).1 = 0
        · right
          refine ⟨hr, ?_⟩
          simp only [World.embla_modifyService, hr, not_true_eq_false, if_false]
          simp only [World.modifyService, World.withEmbla, Heap.modify_modify]
          rfl
        · left
          refine ⟨hr, ?_⟩
          simp only [World.embla_modifyService, hr, not_false_eq_true, if_true]
      · left
        simp only [hdead, not_false_eq_true, if_true]
        exact ⟨0, le_refl _, rfl, fun hc => absurd hc (by decide), fun _ => .inr ⟨p, rfl, hdead⟩⟩
  · left
    simp only [hst, ne_eq, not_false_eq_true, if_true]
    exact ⟨0, le_refl _, rfl, fun hc => absurd hc (by decide), fun _ => .inl trivial⟩

/-! ## What each call does to the records and the list of calls -/

theorem serviceStart_calls (s : ServicePtr) (w : World) :
    (serviceStart s w).2.calls = ⟨.start, s, w.service s, w.embla, (serviceStart s w).1⟩ :: w.calls := by
  rcases serviceStart_cases s w with ⟨-, hx⟩ | ⟨-, e, -, hx⟩ | ⟨-, p, e, -, hx⟩ <;> rw [hx] <;> rfl

theorem serviceStop_calls (s : ServicePtr) (w : World) :
    (serviceStop s w).2.calls = ⟨.stop, s, w.service s, w.embla, (serviceStop s w).1⟩ :: w.calls := by
  rcases serviceStop_cases s w with ⟨-, hx⟩ | ⟨-, p, -, hx⟩ <;> rw [hx] <;> rfl

theorem serviceKill_calls (s : ServicePtr) (w : World) :
    (serviceKill s w).2.calls = ⟨.kill, s, w.service s, w.embla, (serviceKill s w).1⟩ :: w.calls := by
  rcases serviceKill_cases s w with ⟨-, hx⟩ | ⟨-, p, -, hx⟩ <;> rw [hx] <;> rfl

theorem serviceReap_calls (s : ServicePtr) (w : World) :
    (serviceReap s w).2.calls = ⟨.reap, s, w.service s, w.embla, (serviceReap s w).1⟩ :: w.calls := by
  rcases serviceReap_cases s w with ⟨r, -, hx, -⟩ | ⟨p, -, -, -, ⟨-, hx⟩ | ⟨-, hx⟩⟩ <;> rw [hx] <;> rfl

theorem serviceStart_other {s t : ServicePtr} (h : t ≠ s) (w : World) :
    (serviceStart s w).2.service t = w.service t := by
  rcases serviceStart_cases s w with ⟨-, hx⟩ | ⟨-, e, -, hx⟩ | ⟨-, p, e, -, hx⟩ <;> rw [hx]
  · rfl
  · rfl
  · exact World.service_modifyService_of_ne _ _ h

theorem serviceStop_other {s t : ServicePtr} (h : t ≠ s) (w : World) :
    (serviceStop s w).2.service t = w.service t := by
  rcases serviceStop_cases s w with ⟨-, hx⟩ | ⟨-, p, -, hx⟩ <;> rw [hx]
  · rfl
  · simp only [World.service_logged, World.service_withEmbla]
    exact World.service_modifyService_of_ne w _ h

theorem serviceKill_service (s t : ServicePtr) (w : World) : (serviceKill s w).2.service t = w.service t := by
  rcases serviceKill_cases s w with ⟨-, hx⟩ | ⟨-, p, -, hx⟩ <;> rw [hx] <;> rfl

theorem serviceReap_other {s t : ServicePtr} (h : t ≠ s) (w : World) :
    (serviceReap s w).2.service t = w.service t := by
  rcases serviceReap_cases s w with ⟨r, -, hx, -⟩ | ⟨p, -, -, -, ⟨-, hx⟩ | ⟨-, hx⟩⟩ <;> rw [hx]
  · rfl
  · exact World.service_modifyService_of_ne w _ h
  · exact World.service_modifyService_of_ne w _ h

/-- A start that fails leaves the record alone. -/
theorem serviceStart_self (s : ServicePtr) (w : World) :
    ((serviceStart s w).1 = -1 ∧ (serviceStart s w).2.service s = w.service s) ∨
    ((w.service s).state = .stopped ∧ (serviceStart s w).1 = 0 ∧
      ∃ p now, (serviceStart s w).2.service s = (w.service s).launched p now) := by
  rcases serviceStart_cases s w with ⟨-, hx⟩ | ⟨-, e, -, hx⟩ | ⟨hst, p, e, -, hx⟩ <;> rw [hx]
  · exact .inl ⟨rfl, rfl⟩
  · exact .inl ⟨rfl, rfl⟩
  · exact .inr ⟨hst, rfl, p, _, World.service_modifyService_self ..⟩

theorem serviceStop_self (s : ServicePtr) (w : World) :
    ((serviceStop s w).1 = -1 ∧ (serviceStop s w).2.service s = w.service s) ∨
    ((w.service s).state = .running ∧
      (serviceStop s w).2.service s = serviceSetStopRequested (w.service s) true) := by
  rcases serviceStop_cases s w with ⟨-, hx⟩ | ⟨hst, p, -, hx⟩ <;> rw [hx]
  · exact .inl ⟨rfl, rfl⟩
  · refine .inr ⟨hst, ?_⟩
    simp only [World.service_logged, World.service_withEmbla]
    exact w.service_modifyService_self ..

/-- A reap that does not succeed writes at most what the last instance ended with. -/
theorem serviceReap_self (s : ServicePtr) (w : World) :
    ((serviceReap s w).1 ≤ 0 ∧ ((serviceReap s w).2.service s = w.service s ∨
      ∃ process, (serviceReap s w).2.service s = (w.service s).ended process)) ∨
    ((w.service s).state = .running ∧ (serviceReap s w).1 = 1 ∧ ∃ p, (w.service s).process = some p ∧
      (w.embla.process p).state = .terminated ∧
      (serviceReap s w).2.service s = (w.service s).reaped (w.embla.process p)) := by
  rcases serviceReap_cases s w with ⟨r, hr, hx, -⟩ | ⟨p, hst, hp, hdead, ⟨-, hx⟩ | ⟨-, hx⟩⟩ <;> rw [hx]
  · exact .inl ⟨hr, .inl rfl⟩
  · exact .inl ⟨by simp, .inr ⟨_, w.service_modifyService_self ..⟩⟩
  · exact .inr ⟨hst, rfl, p, hp, hdead, w.service_modifyService_self ..⟩

end EmblaOs
