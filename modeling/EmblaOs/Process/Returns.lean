/-
The end of `embla_run`. The loop polls once a round and spawns nothing, so it is over as soon as every
live process has been reported dead, a poll has failed or somebody has called `embla_stop`. A report
that goes to a dead process of the same pid ends it early. The bound is in rounds: whatever comes within
the next `n` polls, `n + 2` rounds are enough, and with more fuel the answer is the same.
-/
import EmblaOs.Process.Accounts
import EmblaOs.Process.Cleanup

namespace EmblaOs

open Lib

namespace Embla

/-- No two live processes have the same pid. -/
def LivePids (e : Embla) : Prop :=
  ∀ p q, e.Tracked p → e.Tracked q → (e.process p).state ≠ .terminated → (e.process q).state ≠ .terminated →
    (e.process p).hostId = (e.process q).hostId → p = q

/-- The host reports a death of this pid at its poll `i` from here. -/
def DiesAt (e : Embla) (pid : Int) (i : Nat) : Prop :=
  ∃ event, e.host.wait4s.get i = .event event ∧ event.status.Death ∧ event.hostId.pid = pid

/-- Somebody calls `embla_stop` before one of the next `n` polls, or one of them fails, or they bring the
death of every live process. -/
inductive EndsWithin (n : Nat) (e : Embla) : Prop
  | stopped (i : Nat) (hi : i < n) (hs : e.host.stops.get i = true)
  | failed (i : Nat) (hi : i < n) (hw : e.host.wait4s.get i = .error)
  | deaths (hd : ∀ p, e.Tracked p → (e.process p).state ≠ .terminated → ∃ i < n, e.DiesAt (e.process p).hostId i)

variable {e e' : Embla} {p : ProcessPtr}

/-! ## One round -/

/-- A round after which the loop goes on: nobody comes to life, and no live process is left whose death
was reported in it. -/
structure Passed (e e' : Embla) : Prop where
  tracked : ∀ p, e'.Tracked p ↔ e.Tracked p
  hostId : ∀ p, e.Tracked p → (e'.process p).hostId = (e.process p).hostId
  live : ∀ p, e.Tracked p → (e'.process p).state ≠ .terminated → (e.process p).state ≠ .terminated
  noted : ∀ p, e.Tracked p → (e'.process p).state ≠ .terminated → ¬ e.DiesAt (e.process p).hostId 0
  stops : e'.host.stops = e.host.stops
  wait4s : e'.host.wait4s = e.host.wait4s.tail

theorem polled_host (e : Embla) : e.polled.host.stops = e.host.stops ∧ e.polled.host.wait4s = e.host.wait4s.tail := by
  constructor
  · unfold polled Host.wait4
    cases e.host.wait4s.head <;> rfl
  · exact (Host.wait4_rest e.host).2.2.2.2.2.2

/-- A poll that brings no report. -/
theorem passed_quiet (hw : ∀ event, e.host.wait4s.head ≠ .event event) : Passed e e.polled := by
  refine ⟨fun _ => Iff.rfl, fun _ _ => rfl, fun _ _ h => h, ?_, (polled_host e).1, (polled_host e).2⟩
  rintro p - - ⟨event, hevent, -⟩
  exact hw event hevent

/-- A report that was handled to the end: a death of a live process has reached it, since it cannot
have been accepted by a dead one. -/
theorem Inv.passed_handled (h : e.Inv) (hpids : e.LivePids) {event : ChildEvent} (hw : e.host.wait4s.head = .event event)
    (hret : (emblaHandleChildEvent event e.polled).1 = 0) : Passed e (emblaHandleChildEvent event e.polled).2 := by
  have ht := (emblaHandleChildEvent_told event e.polled).polled
  have hhost : (emblaHandleChildEvent event e.polled).2.host.stops = e.host.stops ∧
      (emblaHandleChildEvent event e.polled).2.host.wait4s = e.host.wait4s.tail := by
    rcases emblaHandleChildEvent_host event e.polled with hx | hx <;> rw [hx]
    · exact polled_host e
    · exact polled_host e
  have hlive : ∀ p, ((emblaHandleChildEvent event e.polled).2.process p).state ≠ .terminated →
      (e.process p).state ≠ .terminated := by
    intro p hp hdead
    by_cases hhit : event.status.Death ∧
        processManagerGetByHostId e.processHeap e.processManager event.hostId.pid = some p
    · have hstarted : (e.process p).state ≠ .created := by
        rw [hdead]
        exact fun hc => by cases hc
      exact hp ((ht.applied p hhit.1 hhit.2).2.2 hstarted)
    · exact hp ((ht.others p hhit).2.2.2 hdead)
  refine ⟨ht.handled.tracked, fun p _ => ht.handled.hostId p, fun p _ => hlive p, ?_, hhost.1, hhost.2⟩
  rintro p hp hp' ⟨event', hw', hd, hpid⟩
  obtain rfl : event = event' := by
    have hc : e.host.wait4s.head = .event event' := hw'
    rw [hw] at hc
    cases hc
    rfl
  have hne : event.hostId.pid ≠ emblaInvalidHostPid := by
    have := event.hostId.pos
    unfold emblaInvalidHostPid
    omega
  cases hget : processManagerGetByHostId e.processHeap e.processManager event.hostId.pid with
  | none => exact (getByHostId_none hne).1 hget p hp hpid.symm
  | some q =>
    obtain ⟨hq, hqpid, -⟩ := getByHostId_some hget
    have hqlive : (e.process q).state ≠ .terminated := by
      -- a dead process would have refused the report
      intro hqdead
      rcases emblaHandleChildEvent_cases event e.polled with ⟨hnone, -⟩ | ⟨r, hr, ⟨hother, -⟩ | ⟨-, -, hnd, -⟩ | ⟨-, hx⟩⟩
      · exact absurd (hget.symm.trans hnone) fun hc => by cases hc
      · rw [hother] at hd
        exact hd
      · exact hnd hd
      · obtain rfl : q = r := Option.some.inj (hget.symm.trans hr)
        have hstate : ((e.polled.modifyProcess q (WaitStatus.note event.status)).process q).state = .terminated := by
          rw [process_modifyProcess_self, (WaitStatus.note_keeps event.status _).2.2.2.1]
          exact hqdead
        rw [hx] at hret
        rcases emblaHandleTerminated_cases q event.usage (e.polled.modifyProcess q (WaitStatus.note event.status)) with
          ⟨-, hy⟩ | ⟨hcan, -⟩
        · rw [hy] at hret
          cases hret
        · exact ((canTransition_terminated _).1 hcan).2 hstate
    have hsame : q = p := hpids q p hq hp hqlive (hlive p hp') (hqpid.trans hpid)
    subst hsame
    exact hp' ((ht.applied q hd hget).2.2 (h.started q hq))

theorem Passed.dispatch (h : Passed e e') (hinv' : e'.Inv) : Passed e (emblaDispatch e').2 := by
  have hu := unreported_dispatch hinv'
  have hsame : ∀ p, e.Tracked p → (e'.process p).SameAccount ((emblaDispatch e').2.process p) := fun p hp =>
    hu.account p (hinv'.alloc ((h.tracked p).2 hp))
  have hback : ∀ p, e.Tracked p → ((emblaDispatch e').2.process p).state ≠ .terminated →
      (e'.process p).state ≠ .terminated := fun p hp hlive hdead => hlive ((hsame p hp).dead.2 hdead)
  exact ⟨h.tracked, fun p hp => (hsame p hp).hostId.trans (h.hostId p hp), fun p hp hlive => h.live p hp (hback p hp hlive),
    fun p hp hlive => h.noted p hp (hback p hp hlive), h.stops, h.wait4s⟩

theorem Sound.passed (h : e.Sound) (hpids : e.LivePids) (hr : Round e false e') : Passed e e' := by
  cases hr with
  | quiet hw =>
    refine passed_quiet fun event hc => ?_
    rw [hc] at hw
    rcases hw with hw | hw <;> cases hw
  | handled event hw hret => exact h.inv.passed_handled hpids hw hret
  | dispatched event hw hret =>
    have hpolled : e.polled.Inv := Embla.OnlyHost.inv ⟨_, rfl⟩ h.inv
    exact (h.inv.passed_handled hpids hw hret).dispatch (hpolled.handled (emblaHandleChildEvent_handled event e.polled))

theorem Passed.livePids (h : Passed e e') (hpids : e.LivePids) : e'.LivePids := by
  intro p q hp hq hlp hlq hpq
  have hp' := (h.tracked p).1 hp
  have hq' := (h.tracked q).1 hq
  rw [h.hostId p hp', h.hostId q hq'] at hpq
  exact hpids p q hp' hq' (h.live p hp' hlp) (h.live q hq' hlq) hpq

theorem Round.ok (hr : Round e false e') : e.host.wait4s.head ≠ .error := by
  intro herr
  cases hr with
  | quiet hw =>
    rw [herr] at hw
    rcases hw with hw | hw <;> cases hw
  | handled event hw =>
    rw [herr] at hw
    cases hw
  | dispatched event hw =>
    rw [herr] at hw
    cases hw

theorem LivePids.congr (h : e.LivePids) (hmanager : e'.processManager = e.processManager)
    (hheap : e'.processHeap = e.processHeap) : e'.LivePids := by
  unfold LivePids Tracked process at h ⊢
  rw [hmanager, hheap]
  exact h

theorem EndsWithin.congr {n : Nat} (h : EndsWithin n e) (hhost : e'.host = e.host)
    (hmanager : e'.processManager = e.processManager) (hheap : e'.processHeap = e.processHeap) : EndsWithin n e' := by
  cases h with
  | stopped i hi hs => exact .stopped i hi (by rw [hhost]; exact hs)
  | failed i hi hw => exact .failed i hi (by rw [hhost]; exact hw)
  | deaths hd =>
    refine .deaths ?_
    unfold DiesAt Tracked process at hd ⊢
    rw [hhost, hmanager, hheap]
    exact hd

/-- If it is to end without another poll, all are dead. -/
theorem EndsWithin.all_dead (h : EndsWithin 0 e) (p : ProcessPtr) (hp : e.Tracked p) :
    ¬ (e.process p).state ≠ .terminated := by
  intro hlive
  cases h with
  | stopped i hi => exact Nat.not_lt_zero i hi
  | failed i hi => exact Nat.not_lt_zero i hi
  | deaths hd =>
    obtain ⟨i, hi, -⟩ := hd p hp hlive
    exact Nat.not_lt_zero i hi

/-- What is to come within `n + 1` polls comes within `n` after a round, unless it came in that round. -/
theorem EndsWithin.passed {n : Nat} (h : EndsWithin (n + 1) e) (hp : Passed { e with host := e.host.stopRequest.2 } e')
    (hstop : e.host.stops.get 0 = false) (hok : e.host.wait4s.get 0 ≠ .error) : EndsWithin n e' := by
  have hstops : e'.host.stops = e.host.stops.tail := hp.stops
  have hwait : e'.host.wait4s = e.host.wait4s.tail := hp.wait4s
  cases h with
  | stopped i hi hs =>
    cases i with
    | zero =>
      rw [hstop] at hs
      cases hs
    | succ i =>
      refine .stopped i (Nat.lt_of_succ_lt_succ hi) ?_
      rw [hstops]
      exact hs
  | failed i hi hw =>
    cases i with
    | zero => exact absurd hw hok
    | succ i =>
      refine .failed i (Nat.lt_of_succ_lt_succ hi) ?_
      rw [hwait]
      exact hw
  | deaths hd =>
    refine .deaths fun p hp' hlive => ?_
    have hold : e.Tracked p := (hp.tracked p).1 hp'
    obtain ⟨i, hi, event, hw, hdeath, hpid⟩ := hd p hold (hp.live p hold hlive)
    cases i with
    | zero => exact absurd ⟨event, hw, hdeath, hpid⟩ (hp.noted p hold hlive)
    | succ i =>
      refine ⟨i, Nat.lt_of_succ_lt_succ hi, event, ?_, hdeath, hpid.trans (hp.hostId p hold).symm⟩
      rw [hwait]
      exact hw

/-! ## The loop -/

/-- With the runtime no longer running the loop is left at its next look. -/
theorem loop_settled (hs : e.atCondition.state ≠ .running) :
    ∃ result, ∀ fuel, 1 ≤ fuel → emblaRunLoop fuel e = some result := by
  by_cases hstop : e.atCondition.state = .stopping
  · refine ⟨(if (emblaShutdown e.atCondition).1 ≠ 0 then -1 else 0, (emblaShutdown e.atCondition).2), fun fuel hfuel => ?_⟩
    obtain ⟨fuel, rfl⟩ := Nat.exists_eq_add_of_le' hfuel
    rw [emblaRunLoop_succ, if_neg hs, if_pos hstop]
    split <;> rfl
  · refine ⟨(0, e.atCondition), fun fuel hfuel => ?_⟩
    obtain ⟨fuel, rfl⟩ := Nat.exists_eq_add_of_le' hfuel
    rw [emblaRunLoop_succ, if_neg hs, if_neg hstop]

/-- A call of `embla_stop` is seen at the next look. -/
theorem stop_seen (e : Embla) : (emblaStop e).atCondition.state ≠ .running := by
  have hstop : ∀ a : Embla, (emblaStop a).state ≠ .running := by
    intro a
    unfold emblaStop
    split
    · assumption
    · exact fun hc => by cases hc
  unfold atCondition
  split
  · exact hstop _
  · exact hstop e

theorem running_atCondition (hs : e.atCondition.state = .running) :
    e.host.stops.get 0 = false ∧ e.atCondition = { e with host := e.host.stopRequest.2 } := by
  have hlook : e.host.stopRequest.1 = e.host.stops.get 0 := rfl
  unfold atCondition at hs ⊢
  cases hstop : e.host.stopRequest.1 with
  | false => exact ⟨hlook.symm.trans hstop, rfl⟩
  | true =>
    rw [hstop, if_pos rfl] at hs
    unfold emblaStop at hs
    split at hs
    · contradiction
    · cases hs

theorem quiet_of_dead (h : ∀ p, e.Tracked p → (e.process p).state = .terminated) : e.Quiet := by
  refine List.countP_eq_zero.2 fun p hp => ?_
  have hdead : (e.processHeap.read p).state = .terminated := h p hp
  simp [hdead]

theorem roundEnd_same (e : Embla) : e.roundEnd.host = e.host ∧ e.roundEnd.processManager = e.processManager ∧
    e.roundEnd.processHeap = e.processHeap := by
  unfold roundEnd emblaStop
  split
  · split <;> exact ⟨rfl, rfl, rfl⟩
  · exact ⟨rfl, rfl, rfl⟩

/-- The rounds go down one by one to the one in which it ends. -/
theorem loop_returns : ∀ (n : Nat) (e : Embla), e.Sound → e.LivePids → EndsWithin n e →
    ∃ result, ∀ fuel, n + 2 ≤ fuel → emblaRunLoop fuel e = some result
  | n, e, h, hpids, hend => by
    by_cases hs : e.atCondition.state = .running
    swap
    · obtain ⟨result, hx⟩ := loop_settled hs
      exact ⟨result, fun fuel hfuel => hx fuel (by omega)⟩
    obtain ⟨hstop, hcond⟩ := running_atCondition hs
    have hsound : e.atCondition.Sound := h.steps (atCondition_steps e)
    have hbodySound := hsound.steps (emblaRunBody_steps e.atCondition)
    obtain ⟨failed, e₁, hround, hbody⟩ := emblaRunBody_round e.atCondition
    rw [hbody] at hbodySound
    cases failed with
    | true =>
      refine ⟨(-1, { e₁ with state := .stopped }), fun fuel hfuel => ?_⟩
      obtain ⟨fuel, rfl⟩ := Nat.exists_eq_add_of_le' (Nat.le_trans (Nat.le_add_left 1 (n + 1)) hfuel)
      rw [emblaRunLoop_succ, if_pos hs, hbody]
      rfl
    | false =>
      have hpids' : e.atCondition.LivePids := by
        rw [hcond]
        exact hpids
      have hpassed : Passed { e with host := e.host.stopRequest.2 } e₁ := by
        rw [← hcond]
        exact hsound.passed hpids' hround
      have hnext : ∀ result, (∀ fuel, n + 1 ≤ fuel → emblaRunLoop fuel e₁.roundEnd = some result) →
          ∀ fuel, n + 2 ≤ fuel → emblaRunLoop fuel e = some result := by
        intro result hx fuel hfuel
        obtain ⟨fuel, rfl⟩ := Nat.exists_eq_add_of_le' (Nat.le_trans (Nat.le_add_left 1 (n + 1)) hfuel)
        rw [emblaRunLoop_succ, if_pos hs, hbody]
        exact hx fuel (by omega)
      cases n with
      | zero =>
        -- nobody was live any more, so the round ends with `embla_stop`
        have hquiet : e₁.Quiet := by
          refine quiet_of_dead fun p hp => ?_
          by_contra hlive
          have hp' : e.Tracked p := (hpassed.tracked p).1 hp
          exact hend.all_dead p hp' (hpassed.live p hp' hlive)
        have hseen : e₁.roundEnd.atCondition.state ≠ .running := by
          unfold roundEnd
          rw [if_pos (show processManagerLiveCount e₁.processHeap e₁.processManager = 0 from hquiet)]
          exact stop_seen e₁
        obtain ⟨result, hx⟩ := loop_settled hseen
        exact ⟨result, hnext result hx⟩
      | succ n =>
        have hok : e.host.wait4s.get 0 ≠ .error := by
          have hok' := hround.ok
          rwa [hcond] at hok'
        have hend₁ : EndsWithin n e₁ := hend.passed hpassed hstop hok
        obtain ⟨hhost, hmanager, hheap⟩ := roundEnd_same e₁
        obtain ⟨result, hx⟩ := loop_returns n e₁.roundEnd hbodySound ((hpassed.livePids hpids).congr hmanager hheap)
          (hend₁.congr hhost hmanager hheap)
        exact ⟨result, hnext result hx⟩

/-! ## The call -/

/-- The dispatch on entry takes no report and no process away. -/
theorem EndsWithin.dispatch {n : Nat} (h : EndsWithin n e) (hinv : e.Inv) : EndsWithin n (emblaDispatch e).2 := by
  cases h with
  | stopped i hi hs => exact .stopped i hi hs
  | failed i hi hw => exact .failed i hi hw
  | deaths hd =>
    refine .deaths fun p hp hlive => ?_
    have hsame := (unreported_dispatch hinv).account p (hinv.alloc (show e.Tracked p from hp))
    obtain ⟨i, hi, hdies⟩ := hd p hp fun hdead => hlive (hsame.dead.2 hdead)
    rw [← hsame.hostId] at hdies
    exact ⟨i, hi, hdies⟩

theorem LivePids.dispatch (h : e.LivePids) (hinv : e.Inv) : (emblaDispatch e).2.LivePids := by
  have hsame : ∀ p, e.Tracked p → (e.process p).SameAccount ((emblaDispatch e).2.process p) := fun p hp =>
    (unreported_dispatch hinv).account p (hinv.alloc hp)
  intro p q hp hq hlp hlq hpq
  rw [(hsame p hp).hostId, (hsame q hq).hostId] at hpq
  exact h p q hp hq (fun hdead => hlp ((hsame p hp).dead.2 hdead)) (fun hdead => hlq ((hsame q hq).dead.2 hdead)) hpq

/-- From every state of every run a call of `embla_run` returns, and with the same answer from `n + 2`
rounds on, if within its next `n` polls the last live process is reported dead, a poll fails or somebody
calls `embla_stop`; the runtime is stopped then. If it was only spawned and signalled before, nobody stops
it and it returns 0, then it has cleaned up. -/
theorem run_returns {host : Host} (h : EmblaRuns (emblaCreate host) e) (hpids : e.LivePids) {n : Nat}
    (hend : EndsWithin n e) : ∃ result e', (∀ fuel, n + 2 ≤ fuel → emblaRun fuel e = some (result, e')) ∧
      (e.state = .stopped → e'.state = .stopped) ∧
      (Runs EmblaOp.exec Grows (emblaCreate host) e → (∀ n, e.host.stops.get n = false) → result = 0 → e'.Clean) := by
  have hsound := sound_of_runs h
  suffices hret : ∃ result, ∀ fuel, n + 2 ≤ fuel → emblaRun fuel e = some result by
    obtain ⟨⟨result, e'⟩, hx⟩ := hret
    refine ⟨result, e', hx, fun hs => hsound.run_stopped hs (hx _ (le_refl _)), fun hgrows hstops hzero => ?_⟩
    subst hzero
    exact (grown_of_runs hgrows).run hstops (hx _ (le_refl _))
  by_cases hs : e.state = .stopped
  swap
  · exact ⟨(-1, e), fun fuel _ => if_pos hs⟩
  have hstart : Sound { e with state := .running } := hsound.step (.state e .running)
  have hends : EndsWithin n { e with state := .running } := hend.congr rfl rfl rfl
  have hpids' : LivePids { e with state := .running } := hpids
  have hrun : ∀ fuel, emblaRun fuel e =
      if e.scheduler.count > 0 then
        if (emblaDispatch { e with state := .running }).1 ≠ 0 then
          some (-1, { (emblaDispatch { e with state := .running }).2 with state := .stopped })
        else emblaRunLoop fuel (emblaDispatch { e with state := .running }).2
      else emblaRunLoop fuel { e with state := .running } := fun fuel => if_neg (not_not.2 hs)
  simp only [hrun]
  by_cases hcount : e.scheduler.count > 0
  · simp only [if_pos hcount]
    by_cases hdispatch : (emblaDispatch { e with state := .running }).1 ≠ 0
    · simp only [if_pos hdispatch]
      exact ⟨_, fun _ _ => rfl⟩
    · simp only [if_neg hdispatch]
      exact loop_returns n _ (hstart.step (.dispatch _)) (hpids'.dispatch hstart.inv) (hends.dispatch hstart.inv)
  · simp only [if_neg hcount]
    exact loop_returns n _ hstart hpids' hends

end Embla

/-- Both deaths come within two polls. -/
theorem run_returns_parent_first :
    ∃ e', (∀ fuel, 4 ≤ fuel → emblaRun fuel parentDiesFirst = some (0, e')) ∧ e'.state = .stopped ∧ e'.Clean := by
  have hgrows : Runs EmblaOp.exec Embla.Grows (emblaCreate (.generous exitsInTurn [] 0)) parentDiesFirst :=
    ((Runs.refl _).next (.runtime (.spawn "parent")) trivial rfl).next (.runtime (.spawnChild 0 "child"))
      (List.mem_singleton_self 0) rfl
  have hruns : EmblaRuns (emblaCreate (.generous exitsInTurn [] 0)) parentDiesFirst :=
    ((Runs.refl _).next (.runtime (.spawn "parent")) trivial rfl).next (.runtime (.spawnChild 0 "child"))
      (List.mem_singleton_self 0) rfl
  have htable : parentDiesFirst.processManager.processes = [0, 1] := by decide +kernel
  have hmem : ∀ p, parentDiesFirst.Tracked p → p = 0 ∨ p = 1 := by
    intro p hp
    unfold Embla.Tracked at hp
    rw [htable] at hp
    simpa using hp
  have hfirst : (parentDiesFirst.process 0).hostId = 1 := by decide +kernel
  have hsecond : (parentDiesFirst.process 1).hostId = 2 := by decide +kernel
  have hpids : parentDiesFirst.LivePids := by
    intro p q hp hq _ _ hpq
    rcases hmem p hp with rfl | rfl <;> rcases hmem q hq with rfl | rfl
    · rfl
    · rw [hfirst, hsecond] at hpq
      cases hpq
    · rw [hfirst, hsecond] at hpq
      cases hpq
    · rfl
  have hend : Embla.EndsWithin 2 parentDiesFirst := by
    refine .deaths fun p hp _ => ?_
    rcases hmem p hp with rfl | rfl
    · rw [hfirst]
      exact ⟨0, by decide, _, rfl, trivial, rfl⟩
    · rw [hsecond]
      exact ⟨1, by decide, _, rfl, trivial, rfl⟩
  obtain ⟨result, e', hx, hstopped, hclean⟩ := Embla.run_returns hruns hpids hend
  have hzero : (emblaRun 4 parentDiesFirst).map Prod.fst = some 0 := by decide +kernel
  rw [hx 4 (le_refl 4)] at hzero
  obtain rfl : result = 0 := Option.some.inj hzero
  exact ⟨e', hx, hstopped (by decide +kernel), hclean hgrows (fun _ => rfl) rfl⟩

end EmblaOs
