/-
What a failed lifecycle call leaves behind. A start, a kill and a reap that return -1 leave the
records, the tables and the scheduler as they found them. A stop marks the service before it asks
for the signal, so when the signal is refused the mark stays.
-/
import EmblaOs.Service.Invariant

namespace EmblaOs

open Lib

def ServiceCall.exec : ServiceCall → ServicePtr → World → Int × World
  | .start => serviceStart
  | .stop => serviceStop
  | .kill => serviceKill
  | .reap => serviceReap

/-- `embla_terminate` and `embla_kill` fail on `p`: it is dead, it has no child, or the host refuses
the next signal. -/
def Embla.Unsignalable (e : Embla) (p : ProcessPtr) : Prop :=
  (e.process p).state = .terminated ∨ (e.process p).hostId = emblaInvalidHostPid ∨ e.host.kills.head ≠ .ok

theorem emblaTerminate_fails_iff (p : ProcessPtr) (e : Embla) : (emblaTerminate p e).1 = -1 ↔ e.Unsignalable p := by
  unfold emblaTerminate executorSignal Host.kill Embla.Unsignalable
  by_cases hdead : (e.process p).state = .terminated
  · simp [hdead]
  by_cases hid : (e.process p).hostId = emblaInvalidHostPid
  · simp [hdead, hid]
  by_cases hok : e.host.kills.head = .ok
  · simp [hdead, hid, hok]
  · simp [hdead, hid, hok]

/-- The two tables with the records they name, and the scheduler. -/
structure Embla.SameRecords (e e' : Embla) : Prop where
  processes : e'.processManager.processes = e.processManager.processes
  records : ∀ p, e.Tracked p → e'.process p = e.process p
  groups : e'.processGroupManager.groups = e.processGroupManager.groups
  groupRecords : ∀ g ∈ e.processGroupManager.groups, e'.group g = e.group g
  scheduler : e'.scheduler = e.scheduler

theorem Embla.SameRecords.onlyHost {e e' : Embla} (h : e.OnlyHost e') : e.SameRecords e' := by
  obtain ⟨host, rfl⟩ := h
  exact ⟨rfl, fun _ _ => rfl, rfl, fun _ _ => rfl, rfl⟩

theorem Embla.SameRecords.spawn {e e' : Embla} {name : String} (h : e.Inv) (hx : emblaSpawn name e = (none, e')) :
    e.SameRecords e' := by
  by_cases hs : e.Spawnable
  · obtain ⟨e₁, hy, -⟩ := Embla.emblaSpawn_launched h hs name
    rw [hx] at hy
    cases hy
  · obtain ⟨e₁, hy, htables, hrecords, hsched, -, hgroups⟩ := Embla.emblaSpawn_failed h hs name
    rw [hx] at hy
    cases hy
    exact ⟨htables.processes, fun p hp => hrecords p (h.alloc hp), htables.groups, hgroups, hsched⟩

namespace World

/-- Every field of every service, the process table, the group table and the scheduler are as before. -/
structure Unchanged (w w' : World) : Prop where
  services : ∀ s, w'.service s = w.service s
  embla : w.embla.SameRecords w'.embla

/-- A first request to stop a service whose instance cannot be signalled. -/
def StopSpoils (w : World) (s : ServicePtr) : Prop :=
  (w.service s).state = .running ∧ (w.service s).stopRequested = false ∧
    ∃ p, (w.service s).process = some p ∧ w.embla.Unsignalable p

variable {w : World} {s : ServicePtr}

theorem Unchanged.refl (w : World) : w.Unchanged w := ⟨fun _ => rfl, .onlyHost (.refl _)⟩

theorem Unchanged.logged {w' : World} (h : w.Unchanged w') (call : ServiceCall) (s : ServicePtr) (result : Int) :
    w.Unchanged (World.logged call s w result w') :=
  ⟨h.services, h.embla⟩

theorem start_failed (h : w.Inv) (hfail : (serviceStart s w).1 = -1) : w.Unchanged (serviceStart s w).2 := by
  rcases serviceStart_cases s w with ⟨-, hx⟩ | ⟨-, e, hspawn, hx⟩ | ⟨-, p, e, -, hx⟩ <;> rw [hx] at hfail ⊢
  · exact (Unchanged.refl w).logged ..
  · have hsame : w.Unchanged (w.withEmbla e) := ⟨fun _ => rfl, .spawn h.embla hspawn⟩
    exact hsame.logged ..
  · cases hfail

theorem kill_failed (w : World) (s : ServicePtr) : w.Unchanged (serviceKill s w).2 := by
  rcases serviceKill_cases s w with ⟨-, hx⟩ | ⟨-, p, -, hx⟩ <;> rw [hx]
  · exact (Unchanged.refl w).logged ..
  · have hsame : w.Unchanged (w.withEmbla (emblaKill p w.embla).2) :=
      ⟨fun _ => rfl, .onlyHost (emblaKill_host p w.embla)⟩
    exact hsame.logged ..

theorem reap_failed (h : w.Inv) (hfail : (serviceReap s w).1 = -1) : w.Unchanged (serviceReap s w).2 := by
  rcases h.reap s with ⟨hx, -⟩ | ⟨p, e, -, -, -, -, -, hx⟩ <;> rw [hx] at hfail <;> cases hfail

/-- A stop that fails has written nothing, or only the request that was already there. -/
theorem stop_failed_iff (w : World) (s : ServicePtr) :
    ((serviceStop s w).1 = -1 → w.Unchanged (serviceStop s w).2) ↔ ¬ w.StopSpoils s := by
  rcases serviceStop_cases s w with ⟨hno, hx⟩ | ⟨hst, p, hp, hx⟩ <;> rw [hx]
  · refine iff_of_true (fun _ => (Unchanged.refl w).logged ..) ?_
    rintro ⟨hst, -, p, hp, -⟩
    rcases hno with hno | hno
    · exact hno hst
    · rw [hp] at hno
      cases hno
  · have hself : ((w.modifyService s fun r => serviceSetStopRequested r true).service s) =
        serviceSetStopRequested (w.service s) true := w.service_modifyService_self ..
    change ((emblaTerminate p w.embla).1 = -1 → _) ↔ _
    rw [emblaTerminate_fails_iff]
    constructor
    -- the flag went up before the signal was refused
    · rintro hsame ⟨-, hflag, q, hq, hdead⟩
      rw [hp] at hq
      cases hq
      have hservice := (hsame hdead).services s
      rw [service_logged, service_withEmbla, hself] at hservice
      have hrequest := congrArg Service.stopRequested hservice
      rw [hflag] at hrequest
      cases hrequest
    · intro hno hdead
      refine Unchanged.logged ⟨fun t => ?_, .onlyHost (emblaTerminate_host p w.embla)⟩ ..
      rw [service_withEmbla]
      rcases eq_or_ne t s with rfl | hne
      · have hflag : (w.service t).stopRequested = true := by
          by_contra hc
          exact hno ⟨hst, Bool.eq_false_iff.2 hc, p, hp, hdead⟩
        rw [hself, ← hflag]
        rfl
      · exact service_modifyService_of_ne w _ hne

/-- In every state of a run a lifecycle call that returns -1 leaves everything as it was, but for the
first stop of a service whose instance cannot be signalled. -/
theorem failed_call_unchanged_iff {w₀ : World} (h₀ : w₀.Fresh) (hrun : Run w₀ w) (call : ServiceCall) (s : ServicePtr) :
    ((call.exec s w).1 = -1 → w.Unchanged (call.exec s w).2) ↔ ¬ (call = .stop ∧ w.StopSpoils s) := by
  have hinv := h₀.inv.run hrun
  cases call with
  | stop => exact (stop_failed_iff w s).trans (by simp)
  | start => exact iff_of_true (start_failed hinv) (by simp)
  | kill => exact iff_of_true (fun _ => kill_failed w s) (by simp)
  | reap => exact iff_of_true (reap_failed hinv) (by simp)

end World

/-- A host that cannot put the second child into its process group. -/
def webUngrouped : World :=
  ⟨emblaCreate { Host.generous [] [] 0 with setpgids := fun n => if n = 0 then .ok else .error }, webAndDb, []⟩

theorem webUngrouped_fresh : webUngrouped.Fresh := ⟨⟨_, rfl⟩, (webAndDbWith_fresh []).services, rfl⟩

/-- The database runs, and the child of the web service is killed again. -/
theorem World.failed_call_unchanged_secondStart :
    (serviceStart 0 (serviceStart 1 webUngrouped).2).1 = -1 ∧
    (serviceStart 0 (serviceStart 1 webUngrouped).2).2.embla.host.trace =
      [.collected 2, .killed 2 .sigkill .ok, .forked 2 0, .forked 1 0] ∧
    (serviceStart 1 webUngrouped).2.Unchanged (serviceStart 0 (serviceStart 1 webUngrouped).2).2 := by
  have hfail : (serviceStart 0 (serviceStart 1 webUngrouped).2).1 = -1 := by decide +kernel
  have hrun : Run webUngrouped (serviceStart 1 webUngrouped).2 := (Runs.refl _).next (.start 1) trivial rfl
  exact ⟨hfail, by decide +kernel, (World.failed_call_unchanged_iff webUngrouped_fresh hrun .start 0).2 (by simp) hfail⟩

/-- The database has died and the runtime knows. -/
def databaseDown : World := (bothRunning [.event (exitOf 0 1)]).drainOneEvent.2

theorem databaseDown_run : Run (webAndDbWith [.event (exitOf 0 1)]) databaseDown :=
  (bothRunning_run _).next .drain trivial rfl

/-- The stop of the dead database fails and leaves its request behind. -/
theorem World.failed_stop_spoils_databaseDown :
    ¬ ∀ (w₀ w : World), w₀.Fresh → Run w₀ w → ∀ (call : ServiceCall) (s : ServicePtr),
      (call.exec s w).1 = -1 → w.Unchanged (call.exec s w).2 := by
  intro h
  have hfail : (serviceStop 1 databaseDown).1 = -1 := by decide +kernel
  have hsame := (h _ _ (webAndDbWith_fresh _) databaseDown_run .stop 1 hfail).services 1
  have hbefore : (databaseDown.service 1).stopRequested = false := by decide +kernel
  have hafter : ((serviceStop 1 databaseDown).2.service 1).stopRequested = true := by decide +kernel
  have hrequest := congrArg Service.stopRequested hsame
  change ((serviceStop 1 databaseDown).2.service 1).stopRequested = _ at hrequest
  rw [hafter, hbefore] at hrequest
  cases hrequest

end EmblaOs
