/-
When `embla_run` gives up. Called on a steady runtime, with only reports that the children's
conditions allow, it fails exactly at a dispatch or a report that the process state machine refuses:
the front of the ready queue is already running, the current slot is taken on entry, or a process
dispatched while its child was stopped is continued.
-/
import EmblaOs.Process.Steady
import EmblaOs.Lib.Runs

namespace EmblaOs

open Lib

namespace Embla

/-- What the host reports next of a tracked process is what its child can do next. -/
def Legit (e : Embla) : Prop :=
  ∀ event, e.host.wait4s.head = .event event → ∀ p, e.Tracked p → (e.process p).hostId = event.hostId.pid →
    (e.host.condition event.hostId.pid).Allows event.status

instance (e : Embla) : Decidable e.Legit :=
  match h : e.host.wait4s.head with
  | .event event => decidable_of_iff
      (∀ p ∈ e.processManager.processes, (e.process p).hostId = event.hostId.pid →
        (e.host.condition event.hostId.pid).Allows event.status)
      ⟨fun hall event' hw p hp hpid => by rw [h] at hw; cases hw; exact hall p hp hpid, fun hall => hall event h⟩
  | .nothing => isTrue fun _ hw => by rw [h] at hw; cases hw
  | .echild => isTrue fun _ hw => by rw [h] at hw; cases hw
  | .error => isTrue fun _ hw => by rw [h] at hw; cases hw

/-- A tracked process that is reported continued is not running yet, and when the current process is
reported dead the front of the ready queue may be dispatched. -/
def Smooth (e : Embla) : Prop :=
  ∀ event, e.host.wait4s.head = .event event → ∀ p, e.Tracked p → (e.process p).hostId = event.hostId.pid →
    (event.status = .continued → (e.process p).state ≠ .running) ∧
    (event.status.Death → e.scheduler.current = some p → e.FrontReady)

/-- Somebody is current, unless nobody is ready. -/
def Engaged (e : Embla) : Prop := e.scheduler.current ≠ none ∨ e.scheduler.count = 0

variable {e e' : Embla} {p : ProcessPtr} {event : ChildEvent}

theorem Steady.smooth_iff (h : e.Steady) (hw : e.host.wait4s.head = .event event) (hp : e.Tracked p)
    (hpid : (e.process p).hostId = event.hostId.pid) :
    e.Smooth ↔ (event.status = .continued → (e.process p).state ≠ .running) ∧
      (event.status.Death → e.scheduler.current = some p → e.FrontReady) := by
  refine ⟨fun hs => hs event hw p hp hpid, fun hs event' hw' r hr hrid => ?_⟩
  rw [hw] at hw'
  cases hw'
  obtain rfl := h.pids p r hp hr (hpid.trans hrid.symm)
  exact hs

theorem smooth_untracked (hw : e.host.wait4s.head = .event event)
    (hno : ∀ p, e.Tracked p → (e.process p).hostId ≠ event.hostId.pid) : e.Smooth := by
  intro event' hw' p hp hpid
  rw [hw] at hw'
  cases hw'
  exact absurd hpid (hno p hp)

theorem smooth_quiet (hw : ∀ event, e.host.wait4s.head ≠ .event event) : e.Smooth :=
  fun event hc => absurd hc (hw event)

/-! ## One report -/

theorem polled_allocs (h : ∀ n, e.host.allocs.get n = true) (n : Nat) : e.polled.host.allocs.get n = true := by
  rw [show e.polled.host.allocs = e.host.allocs from (Host.wait4_rest e.host).2.2.1]
  exact h n

theorem Steady.polled_quiet (h : e.Steady) (hw : ∀ event, e.host.wait4s.head ≠ .event event) : e.polled.Steady :=
  h.onlyHost ⟨_, rfl⟩ (polled_allocs h.allocs) fun _ _ => Host.condition_wait4_nothing hw _

theorem Steady.polled_untracked (h : e.Steady) (hw : e.host.wait4s.head = .event event)
    (hno : ∀ p, e.Tracked p → (e.process p).hostId ≠ event.hostId.pid) : e.polled.Steady := by
  refine h.onlyHost ⟨_, rfl⟩ (polled_allocs h.allocs) fun p hp => ?_
  refine (Host.condition_wait4 hw _).trans (if_neg ?_)
  exact fun hc => hno p hp hc.symm

/-- A report of `p`, after which `p` is in a state that goes with it and the others are as before. -/
theorem Steady.reported (h : e.Steady) (hw : e.host.wait4s.head = .event event) (hp : e.Tracked p)
    (hpid : (e.process p).hostId = event.hostId.pid) (hinv : e'.Inv) (halloc : ∀ n, e'.host.allocs.get n = true)
    (htrace : e'.host.trace = e.polled.host.trace) (htable : e'.processManager.processes = e.processManager.processes)
    (hids : ∀ r, (e'.process r).hostId = (e.process r).hostId)
    (hstate : ∀ r, r ≠ p → (e'.process r).state = (e.process r).state) (hplaced : ∃ q, e'.Placed q)
    {condition : ChildCondition} (hcond : event.status.condition = some condition)
    (hfits : condition.Fits (e'.process p).state) : e'.Steady := by
  have ht := tracked_congr htable
  refine ⟨hinv, halloc, hplaced, fun a b ha hb hab => ?_, fun r hr => ?_⟩
  · rw [hids, hids] at hab
    exact h.pids a b ((ht a).1 ha) ((ht b).1 hb) hab
  · have hsays : e'.host.condition (e.process r).hostId = e.polled.host.condition (e.process r).hostId := by
      unfold Host.condition
      rw [htrace]
    rw [hids, hsays, show e.polled.host.condition (e.process r).hostId = _ from Host.condition_wait4 hw _]
    rcases eq_or_ne r p with rfl | hne
    · rw [if_pos hpid.symm, hcond]
      exact hfits
    · -- another tracked process has another pid
      rw [if_neg fun hc => hne (h.pids r p ((ht r).1 hr) hp (hc.symm.trans hpid.symm)), hstate r hne]
      exact h.fits r ((ht r).1 hr)

/-- A transition to `next` on account of a report of `p`. -/
theorem Steady.moveTo (h : e.Steady) (hw : e.host.wait4s.head = .event event) (hp : e.Tracked p)
    (hpid : (e.process p).hostId = event.hostId.pid) (next : ProcessState) (condition : ChildCondition)
    (hcond : event.status.condition = some condition) (hlive : (e.process p).state ≠ .terminated)
    (hnext : next ≠ .created ∧ next ≠ .terminated)
    (hfits : condition.Fits (processTransition (e.process p) next).2.state) :
    (e.polled.modifyProcess p fun _ => (processTransition (e.process p) next).2).Steady := by
  have hrec : (processTransition (e.process p) next).2.state ≠ .created ∧
      (processTransition (e.process p) next).2.state ≠ .terminated := by
    rw [processTransition_eq]
    simp only
    split
    · exact hnext
    · exact ⟨h.inv.started p hp, hlive⟩
  have hself : ((e.polled.modifyProcess p fun _ => (processTransition (e.process p) next).2).process p) =
      (processTransition (e.process p) next).2 := process_modifyProcess_self ..
  have hother : ∀ r, r ≠ p → (e.polled.modifyProcess p fun _ => (processTransition (e.process p) next).2).process r =
      e.process r := fun r hr => process_modifyProcess_of_ne _ _ hr
  have hh : Handled e.polled (e.polled.modifyProcess p fun _ => (processTransition (e.process p) next).2) := by
    refine .modifyProcess e.polled p ?_ fun _ => hrec.1
    rw [processTransition_eq]
    exact ⟨rfl, rfl, rfl, rfl⟩
  have hinv : e.polled.Inv := Embla.OnlyHost.inv ⟨_, rfl⟩ h.inv
  obtain ⟨q, hq⟩ := h.placed
  refine h.reported hw hp hpid (hinv.handled hh) (polled_allocs h.allocs) rfl rfl hh.hostId
    (fun r hr => by rw [hother r hr]) ⟨q, hq.congr rfl (fun _ => Iff.rfl) fun r hr => ?_⟩ hcond (by rw [hself]; exact hfits)
  rcases eq_or_ne r p with rfl | hne
  · rw [hself]
    exact iff_of_false hrec.2 hlive
  · rw [hother r hne]

/-- The death of a live process, its exit code or signal being recorded by `f`. -/
theorem Steady.dies (h : e.Steady) (hw : e.host.wait4s.head = .event event) (hp : e.Tracked p)
    (hpid : (e.process p).hostId = event.hostId.pid) (hdeath : event.status.Death)
    (hlive : (e.process p).state ≠ .terminated) {f : Process → Process}
    (hf : ∀ r, (f r).id = r.id ∧ (f r).groupId = r.groupId ∧ (f r).hostId = r.hostId ∧ (f r).state = r.state) :
    ∃ e', emblaHandleTerminated p event.usage (e.polled.modifyProcess p f) = (0, e') ∧ e'.Steady ∧ e'.state = e.state ∧
      (e'.scheduler.current = if e.scheduler.current = some p then none else e.scheduler.current) ∧
      (e.scheduler.current = some p → (e'.FrontReady ↔ e.FrontReady)) := by
  have hself : (e.polled.modifyProcess p f).process p = f (e.process p) := process_modifyProcess_self ..
  have hother : ∀ r, r ≠ p → (e.polled.modifyProcess p f).process r = e.process r := fun r hr =>
    process_modifyProcess_of_ne _ _ hr
  have hstate : ∀ r, ((e.polled.modifyProcess p f).process r).state = (e.process r).state := by
    intro r
    rcases eq_or_ne r p with rfl | hne
    · rw [hself]
      exact (hf _).2.2.2
    · rw [hother r hne]
  have hids : ∀ r, ((e.polled.modifyProcess p f).process r).hostId = (e.process r).hostId := by
    intro r
    rcases eq_or_ne r p with rfl | hne
    · rw [hself]
      exact (hf _).2.2.1
    · rw [hother r hne]
  obtain ⟨q, hq⟩ := h.placed
  have hinv : (e.polled.modifyProcess p f).Inv := by
    refine (Embla.OnlyHost.inv ⟨_, rfl⟩ h.inv : e.polled.Inv).modifyProcess p (fun r => ⟨(hf r).1, (hf r).2.1⟩) fun r hr => ?_
    rw [(hf r).2.2.2]
    exact hr
  have hplaced : (e.polled.modifyProcess p f).Placed q :=
    hq.congr rfl (fun _ => Iff.rfl) fun r _ => by rw [hstate r]
  have hlive' : ((e.polled.modifyProcess p f).process p).state ≠ .terminated := by
    rw [hstate]
    exact hlive
  obtain ⟨e', hx, hd⟩ := hplaced.handleTerminated hinv hp hlive' (polled_allocs h.allocs 0) event.usage
  obtain ⟨hplaced', hcur⟩ := hplaced.died hp hlive' hd
  refine ⟨e', hx, ?_, hd.embla, hcur, fun hc => ?_⟩
  · have hcond : event.status.condition = some .gone := by
      cases hs : event.status <;> rw [hs] at hdeath <;> first | rfl | exact hdeath.elim
    refine h.reported hw hp hpid ?_ ?_ ?_ ?_ (fun r => (hd.hostId r).trans (hids r)) (fun r hr => ?_) ⟨_, hplaced'⟩ hcond ?_
    · exact hinv.sameTables hd.tables ⟨_, hplaced'.queue, fun r hr => by
        have htr := (hplaced'.tracked hr).1
        rw [hd.tables.tracked] at htr
        exact lt_of_lt_of_le (hinv.alloc htr) hd.tables.next⟩
    · intro n
      rw [hd.host]
      exact polled_allocs h.allocs (n + 1)
    · rw [hd.host]
      rfl
    · exact hd.tables.processes
    · rw [hd.state r, if_neg hr, hstate]
    · rw [hd.state p, if_pos rfl]
      exact rfl
  · -- the queue is as it was and the dead process was not in it
    rw [show (e.polled.modifyProcess p f).scheduler.current = some p from hc, if_pos rfl] at hplaced'
    unfold FrontReady
    rw [hplaced'.front, hq.front]
    refine forall₂_congr fun r hr => ?_
    have hnodup := hq.nodup
    rw [hc] at hnodup
    have hne : r ≠ p := by
      rintro rfl
      exact (List.nodup_cons.1 hnodup).1 (List.mem_of_mem_head? hr)
    rw [hd.state r, if_neg hne, hstate]

/-- A report of `p` was handled: the round can go on as it is, or the current process is gone and
then it depends on the front of the queue. -/
def Absorbed (e e' : Embla) : Prop :=
  e'.Steady ∧ e'.state = e.state ∧
    ((e'.Engaged ∧ e.Smooth) ∨ (e'.scheduler.current = none ∧ (e.Smooth ↔ e'.FrontReady)))

/-- While a process is live, an engaged runtime has a current one. -/
theorem Steady.current_of_engaged (h : e.Steady) (heng : e.Engaged) (hp : e.Tracked p)
    (hlive : (e.process p).state ≠ .terminated) : e.scheduler.current ≠ none := by
  intro hnone
  obtain ⟨q, hq⟩ := h.placed
  have hmem := (hq.mem p).2 ⟨hp, hlive⟩
  have hzero := heng.resolve_left fun hne => hne hnone
  rw [hq.count, List.length_eq_zero_iff] at hzero
  rw [hnone, hzero] at hmem
  cases hmem

/-- A death takes the process out of the scheduler. -/
theorem Steady.handle_death (h : e.Steady) (heng : e.Engaged) (hw : e.host.wait4s.head = .event event)
    (hp : e.Tracked p) (hpid : (e.process p).hostId = event.hostId.pid) (hdeath : event.status.Death)
    (hlive : (e.process p).state ≠ .terminated) {f : Process → Process}
    (hf : ∀ r, (f r).id = r.id ∧ (f r).groupId = r.groupId ∧ (f r).hostId = r.hostId ∧ (f r).state = r.state) :
    ∃ e', emblaHandleTerminated p event.usage (e.polled.modifyProcess p f) = (0, e') ∧ Absorbed e e' := by
  obtain ⟨e', hx, hsteady, hstate, hcur, hfront⟩ := h.dies hw hp hpid hdeath hlive hf
  have hnot : event.status ≠ .continued := by
    intro hc
    rw [hc] at hdeath
    exact hdeath
  refine ⟨e', hx, hsteady, hstate, ?_⟩
  rw [h.smooth_iff hw hp hpid]
  by_cases hc : e.scheduler.current = some p
  · rw [if_pos hc] at hcur
    refine .inr ⟨hcur, ?_⟩
    rw [hfront hc]
    exact ⟨fun hs => hs.2 hdeath hc, fun hs => ⟨fun hcon => absurd hcon hnot, fun _ _ => hs⟩⟩
  · rw [if_neg hc] at hcur
    refine .inl ⟨.inl ?_, fun hcon => absurd hcon hnot, fun _ hc' => absurd hc' hc⟩
    rw [hcur]
    exact h.current_of_engaged heng hp hlive

/-- A child that is up may stop whether its process was dispatched or not. -/
theorem Steady.handle_stopped (h : e.Steady) (hl : e.Legit) (heng : e.Engaged)
    (hw : e.host.wait4s.head = .event event) (hp : e.Tracked p) (hpid : (e.process p).hostId = event.hostId.pid)
    {signal : Int} (hs : event.status = .stopped signal) :
    (processTransition (e.process p) .stopped).1 = 0 ∧
      Absorbed e (e.polled.modifyProcess p fun _ => (processTransition (e.process p) .stopped).2) := by
  have hallows := hl event hw p hp hpid
  have hfits := h.fits p hp
  rw [hpid] at hfits
  have hlive := hfits.live hallows
  have hsmooth := h.smooth_iff hw hp hpid
  rw [hs] at hallows hsmooth
  have hx := processTransition_ok ((canTransition_stopped _).2 (hfits.stops hallows))
  have hsteady := h.moveTo hw hp hpid .stopped .stopped (by rw [hs]; rfl) hlive (by decide)
    (by rw [hx]; exact .inl rfl)
  refine ⟨by rw [hx], hsteady, rfl, .inl ⟨heng, hsmooth.2 ⟨fun hc => ?_, fun hc => hc.elim⟩⟩⟩
  cases hc

/-- A stopped child may continue, unless its process was dispatched in the meantime. -/
theorem Steady.handle_continued (h : e.Steady) (hl : e.Legit) (heng : e.Engaged)
    (hw : e.host.wait4s.head = .event event) (hp : e.Tracked p) (hpid : (e.process p).hostId = event.hostId.pid)
    (hs : event.status = .continued) :
    ((processTransition (e.process p) .running).1 = 0 ∧
      Absorbed e (e.polled.modifyProcess p fun _ => (processTransition (e.process p) .running).2)) ∨
    (¬ e.Smooth ∧ (processTransition (e.process p) .running).1 = -1 ∧
      (e.polled.modifyProcess p fun _ => (processTransition (e.process p) .running).2).Steady) := by
  have hallows := hl event hw p hp hpid
  have hfits := h.fits p hp
  rw [hpid] at hfits
  have hlive := hfits.live hallows
  have hsmooth := h.smooth_iff hw hp hpid
  rw [hs] at hallows hsmooth
  rcases hfits.continues hallows with hst | hst
  · left
    have hx := processTransition_ok ((canTransition_running _).2 (.inr hst))
    have hsteady := h.moveTo hw hp hpid .running .up (by rw [hs]; rfl) hlive (by decide)
      (by rw [hx]; exact .inr rfl)
    refine ⟨by rw [hx], hsteady, rfl, .inl ⟨heng, hsmooth.2 ⟨fun _ hc => ?_, fun hc => hc.elim⟩⟩⟩
    rw [hst] at hc
    cases hc
  · right
    have hno : processCanTransition (e.process p).state .running = false := by rw [hst]; rfl
    have hx := processTransition_refused hno
    have hsteady := h.moveTo hw hp hpid .running .up (by rw [hs]; rfl) hlive (by decide)
      (by rw [hx]; exact .inr hst)
    exact ⟨fun hsm => (hsmooth.1 hsm).1 rfl hst, by rw [hx], hsteady⟩

/-- The reported process is live, and what its condition allows it can do, except to continue when
it is running. -/
theorem Steady.handle (h : e.Steady) (hl : e.Legit) (heng : e.Engaged) (hw : e.host.wait4s.head = .event event) :
    (∃ e', emblaHandleChildEvent event e.polled = (0, e') ∧ Absorbed e e') ∨
    (¬ e.Smooth ∧ ∃ e', emblaHandleChildEvent event e.polled = (-1, e') ∧ e'.Steady) := by
  unfold emblaHandleChildEvent
  have hpos : event.hostId.pid ≠ emblaInvalidHostPid := by
    have := event.hostId.pos
    unfold emblaInvalidHostPid
    omega
  cases hget : processManagerGetByHostId e.polled.processHeap e.polled.processManager event.hostId.pid with
  | none =>
    have hno := (getByHostId_none hpos).1 hget
    exact .inl ⟨_, rfl, h.polled_untracked hw hno, rfl, .inl ⟨heng, smooth_untracked hw hno⟩⟩
  | some p =>
    obtain ⟨hp, hpid, -⟩ := getByHostId_some hget
    have hallows := hl event hw p hp hpid
    have hfits := h.fits p hp
    rw [show (e.process p).hostId = event.hostId.pid from hpid] at hfits
    have hlive := hfits.live hallows
    cases hs : event.status with
    | exited code =>
      refine .inl (h.handle_death heng hw hp hpid ?_ hlive fun _ => ⟨rfl, rfl, rfl, rfl⟩)
      rw [hs]
      trivial
    | signaled signal =>
      refine .inl (h.handle_death heng hw hp hpid ?_ hlive fun _ => ⟨rfl, rfl, rfl, rfl⟩)
      rw [hs]
      trivial
    | stopped signal =>
      obtain ⟨hret, habsorbed⟩ := h.handle_stopped hl heng hw hp hpid hs
      exact .inl ⟨_, Prod.ext hret rfl, habsorbed⟩
    | continued =>
      rcases h.handle_continued hl heng hw hp hpid hs with ⟨hret, habsorbed⟩ | ⟨hno, hret, hsteady⟩
      · exact .inl ⟨_, Prod.ext hret rfl, habsorbed⟩
      · exact .inr ⟨hno, _, Prod.ext hret rfl, hsteady⟩
    | other =>
      -- no child reports this
      rw [hs] at hallows
      generalize e.host.condition event.hostId.pid = c at hallows
      cases c <;> exact hallows.elim

/-! ## One round -/

/-- What a round of the loop did before its end: whether it failed on the way, and the runtime that
the poll, the report and the dispatch left. -/
inductive Round (e : Embla) : Bool → Embla → Prop
  | error (hw : e.host.wait4s.head = .error) : Round e true e.polled
  | quiet (hw : e.host.wait4s.head = .nothing ∨ e.host.wait4s.head = .echild) : Round e false e.polled
  | refused (event : ChildEvent) (hw : e.host.wait4s.head = .event event)
      (hret : (emblaHandleChildEvent event e.polled).1 ≠ 0) : Round e true (emblaHandleChildEvent event e.polled).2
  | handled (event : ChildEvent) (hw : e.host.wait4s.head = .event event)
      (hret : (emblaHandleChildEvent event e.polled).1 = 0)
      (heng : (emblaHandleChildEvent event e.polled).2.Engaged) :
      Round e false (emblaHandleChildEvent event e.polled).2
  | stuck (event : ChildEvent) (hw : e.host.wait4s.head = .event event)
      (hret : (emblaHandleChildEvent event e.polled).1 = 0)
      (hcur : (emblaHandleChildEvent event e.polled).2.scheduler.current = none)
      (hpos : (emblaHandleChildEvent event e.polled).2.scheduler.count > 0)
      (hdisp : (emblaDispatch (emblaHandleChildEvent event e.polled).2).1 ≠ 0) :
      Round e true (emblaDispatch (emblaHandleChildEvent event e.polled).2).2
  | dispatched (event : ChildEvent) (hw : e.host.wait4s.head = .event event)
      (hret : (emblaHandleChildEvent event e.polled).1 = 0)
      (hcur : (emblaHandleChildEvent event e.polled).2.scheduler.current = none)
      (hpos : (emblaHandleChildEvent event e.polled).2.scheduler.count > 0)
      (hdisp : (emblaDispatch (emblaHandleChildEvent event e.polled).2).1 = 0) :
      Round e false (emblaDispatch (emblaHandleChildEvent event e.polled).2).2

/-- The end of a round without a failure. -/
def roundEnd (e : Embla) : Embla :=
  if processManagerLiveCount e.processHeap e.processManager = 0 then emblaStop e else e

/-- A failure on the way ends the run with the runtime stopped. -/
theorem emblaRunBody_round (e : Embla) :
    ∃ failed e₁, Round e failed e₁ ∧
      emblaRunBody e = if failed then (some (-1), { e₁ with state := .stopped }) else (none, e₁.roundEnd) := by
  have hend : ∀ e₁ : Embla, ((if processManagerLiveCount e₁.processHeap e₁.processManager = 0 then (none, emblaStop e₁)
      else (none, e₁)) : Option Int × Embla) = (none, e₁.roundEnd) := by
    intro e₁
    unfold roundEnd
    split <;> rfl
  unfold emblaRunBody
  rw [executorPollAny_eq]
  cases hw : e.host.wait4s.head with
  | error => exact ⟨true, _, .error hw, rfl⟩
  | nothing => exact ⟨false, _, .quiet (.inl hw), hend _⟩
  | echild => exact ⟨false, _, .quiet (.inr hw), hend _⟩
  | event event =>
    simp only [show ¬ ((1 : Int) < 0) by decide, if_false]
    by_cases hret : (emblaHandleChildEvent event e.polled).1 = 0
    · simp only [hret, ne_eq, not_true_eq_false, if_false]
      by_cases hidle : (emblaHandleChildEvent event e.polled).2.scheduler.current = none ∧
          (emblaHandleChildEvent event e.polled).2.scheduler.count > 0
      · simp only [if_pos hidle]
        by_cases hdisp : (emblaDispatch (emblaHandleChildEvent event e.polled).2).1 = 0
        · simp only [hdisp, not_true_eq_false, if_false, Bool.false_eq_true]
          exact ⟨false, _, .dispatched event hw hret hidle.1 hidle.2 hdisp, hend _⟩
        · simp only [hdisp, not_false_eq_true, if_true]
          exact ⟨true, _, .stuck event hw hret hidle.1 hidle.2 hdisp, rfl⟩
      · simp only [if_neg hidle, Bool.false_eq_true, if_false]
        refine ⟨false, _, .handled event hw hret ?_, hend _⟩
        rw [not_and_or] at hidle
        exact hidle.imp_right fun hpos => Nat.eq_zero_of_not_pos hpos
    · simp only [hret, ne_eq, not_false_eq_true, if_true]
      exact ⟨true, _, .refused event hw hret, rfl⟩

theorem Steady.stop (h : e.Steady) : (emblaStop e).Steady := by
  unfold emblaStop
  split
  · exact h
  · exact h.withState .stopping

/-- `embla_stop` leaves the scheduler alone and never stops the runtime at once. -/
theorem stop_keeps (e : Embla) :
    (emblaStop e).scheduler = e.scheduler ∧ (e.state ≠ .stopped → (emblaStop e).state ≠ .stopped) := by
  unfold emblaStop
  split
  · exact ⟨rfl, id⟩
  · exact ⟨rfl, fun _ hc => by cases hc⟩

theorem Steady.roundEnd (h : e.Steady) (heng : e.Engaged) (hs : e.state = .running) :
    e.roundEnd.Steady ∧ e.roundEnd.Engaged ∧ e.roundEnd.state ≠ .stopped := by
  have hne : e.state ≠ .stopped := by
    rw [hs]
    exact fun hc => by cases hc
  obtain ⟨hsched, hstate⟩ := stop_keeps e
  unfold Embla.roundEnd
  split
  · refine ⟨h.stop, ?_, hstate hne⟩
    unfold Engaged
    rw [hsched]
    exact heng
  · exact ⟨h, heng, hne⟩

/-- Nothing in the queue, so nothing at its front. -/
theorem Steady.frontReady_of_empty (h : e.Steady) (hzero : e.scheduler.count = 0) : e.FrontReady := by
  obtain ⟨q, hq⟩ := h.placed
  intro p hp
  rw [hq.count, List.length_eq_zero_iff] at hzero
  rw [hq.front, hzero] at hp
  cases hp

/-- Where the round goes on without a dispatch it was smooth. -/
theorem Absorbed.smooth (h : Absorbed e e') (heng : e'.Engaged) : e.Smooth := by
  obtain ⟨hsteady, -, ⟨-, hsmooth⟩ | ⟨hcur, hsmooth⟩⟩ := h
  · exact hsmooth
  · exact hsmooth.2 (hsteady.frontReady_of_empty (heng.resolve_left fun hne => hne hcur))

/-- Where a dispatch is due it is the front that decides. -/
theorem Absorbed.smooth_iff (h : Absorbed e e') (hcur : e'.scheduler.current = none) (hpos : e'.scheduler.count > 0) :
    e.Smooth ↔ e'.FrontReady := by
  obtain ⟨-, -, ⟨heng, -⟩ | ⟨-, hsmooth⟩⟩ := h
  · rcases heng with hne | hzero
    · exact absurd hcur hne
    · omega
  · exact hsmooth

/-- A round ends the run when the poll fails or is not smooth, and goes on otherwise. -/
theorem Steady.body (h : e.Steady) (hl : e.Legit) (heng : e.Engaged) (hs : e.state = .running) :
    (e.host.wait4s.head = .error ∧ e.Smooth ∧
      ∃ e', emblaRunBody e = (some (-1), e') ∧ e'.Steady ∧ e'.state = .stopped) ∨
    (e.host.wait4s.head ≠ .error ∧ ¬ e.Smooth ∧
      ∃ e', emblaRunBody e = (some (-1), e') ∧ e'.Steady ∧ e'.state = .stopped) ∨
    (e.host.wait4s.head ≠ .error ∧ e.Smooth ∧
      ∃ e', emblaRunBody e = (none, e') ∧ e'.Steady ∧ e'.Engaged ∧ e'.state ≠ .stopped) := by
  obtain ⟨failed, e₁, hround, hx⟩ := emblaRunBody_round e
  rw [hx]
  have hevent : ∀ {event}, e.host.wait4s.head = .event event → e.host.wait4s.head ≠ .error := by
    intro event hw hc
    rw [hw] at hc
    cases hc
  cases hround with
  | error hw =>
    have hquiet : ∀ event, e.host.wait4s.head ≠ .event event := fun event hc => by rw [hw] at hc; cases hc
    exact .inl ⟨hw, smooth_quiet hquiet, _, rfl, (h.polled_quiet hquiet).withState .stopped, rfl⟩
  | quiet hw =>
    have hquiet : ∀ event, e.host.wait4s.head ≠ .event event := fun event hc => by
      rw [hc] at hw
      rcases hw with hw | hw <;> cases hw
    have hne : e.host.wait4s.head ≠ .error := fun hc => by
      rw [hc] at hw
      rcases hw with hw | hw <;> cases hw
    exact .inr (.inr ⟨hne, smooth_quiet hquiet, _, rfl, (h.polled_quiet hquiet).roundEnd heng hs⟩)
  | refused event hw hret =>
    rcases h.handle hl heng hw with ⟨e₂, hy, -⟩ | ⟨hno, e₂, hy, hsteady⟩ <;> rw [hy] at hret ⊢
    · exact absurd rfl hret
    · exact .inr (.inl ⟨hevent hw, hno, _, rfl, hsteady.withState .stopped, rfl⟩)
  | handled event hw hret heng₁ =>
    rcases h.handle hl heng hw with ⟨e₂, hy, habsorbed⟩ | ⟨-, e₂, hy, -⟩ <;> rw [hy] at hret heng₁ ⊢
    · exact .inr (.inr ⟨hevent hw, habsorbed.smooth heng₁, _, rfl, habsorbed.1.roundEnd heng₁ (habsorbed.2.1.trans hs)⟩)
    · cases hret
  -- the front process is running already, by a continue that was handled while it was queued
  | stuck event hw hret hcur hpos hdisp =>
    rcases h.handle hl heng hw with ⟨e₂, hy, habsorbed⟩ | ⟨-, e₂, hy, -⟩ <;> rw [hy] at hret hcur hpos hdisp ⊢
    · rcases habsorbed.1.dispatch hcur hpos with ⟨-, e₃, hz, -⟩ | ⟨hfront, e₃, hz, hsteady, -⟩ <;> rw [hz] at hdisp ⊢
      · exact absurd rfl hdisp
      · have hno : ¬ e.Smooth := fun hsm => hfront ((habsorbed.smooth_iff hcur hpos).1 hsm)
        exact .inr (.inl ⟨hevent hw, hno, _, rfl, hsteady.withState .stopped, rfl⟩)
    · cases hret
  | dispatched event hw hret hcur hpos hdisp =>
    rcases h.handle hl heng hw with ⟨e₂, hy, habsorbed⟩ | ⟨-, e₂, hy, -⟩ <;> rw [hy] at hret hcur hpos hdisp ⊢
    · rcases habsorbed.1.dispatch hcur hpos with ⟨hfront, e₃, hz, hsteady, hcur₃, hstate⟩ | ⟨-, e₃, hz, -⟩ <;>
        rw [hz] at hdisp ⊢
      · have hsm : e.Smooth := (habsorbed.smooth_iff hcur hpos).2 hfront
        have hrun : e₃.state = .running := hstate.trans (habsorbed.2.1.trans hs)
        exact .inr (.inr ⟨hevent hw, hsm, _, rfl, hsteady.roundEnd (.inl hcur₃) hrun⟩)
      · cases hdisp
    · cases hret

/-! ## The loop -/

/-- The runtime at the loop condition, after a look at whether somebody called `embla_stop`. -/
def atCondition (e : Embla) : Embla :=
  if e.host.stopRequest.1 then emblaStop { e with host := e.host.stopRequest.2 } else { e with host := e.host.stopRequest.2 }

/-- The states in which the loop of `embla_run` polls. -/
def loopPolls : Nat → Embla → List Embla
  | 0, _ => []
  | fuel + 1, e =>
    if e.atCondition.state = .running then
      e.atCondition :: match emblaRunBody e.atCondition with
        | (some _, _) => []
        | (none, e) => loopPolls fuel e
    else []

theorem emblaRunLoop_succ (fuel : Nat) (e : Embla) :
    emblaRunLoop (fuel + 1) e =
      if e.atCondition.state = .running then
        match emblaRunBody e.atCondition with
        | (some result, e) => some (result, e)
        | (none, e) => emblaRunLoop fuel e
      else if e.atCondition.state = .stopping then
        if (emblaShutdown e.atCondition).1 ≠ 0 then some (-1, (emblaShutdown e.atCondition).2)
        else some (0, (emblaShutdown e.atCondition).2)
      else some (0, e.atCondition) := rfl

theorem Steady.atCondition (h : e.Steady) (heng : e.Engaged) (hs : e.state ≠ .stopped) :
    e.atCondition.Steady ∧ e.atCondition.Engaged ∧ e.atCondition.state ≠ .stopped := by
  have hlook : Steady { e with host := e.host.stopRequest.2 } := h.onlyHost ⟨_, rfl⟩ h.allocs fun _ _ => rfl
  unfold Embla.atCondition
  split
  · obtain ⟨hsched, hstate⟩ := stop_keeps { e with host := e.host.stopRequest.2 }
    refine ⟨hlook.stop, ?_, hstate hs⟩
    unfold Engaged
    rw [hsched]
    exact heng
  · exact ⟨hlook, heng, hs⟩

/-- The loop ends with the runtime stopped and steady, and it fails without a failed poll exactly
when one of its polls is not smooth. -/
theorem Steady.loop : ∀ (fuel : Nat) (e : Embla), e.Steady → e.Engaged → e.state ≠ .stopped →
    (∀ q ∈ loopPolls fuel e, q.Legit) → ∀ (result : Int) (e' : Embla), emblaRunLoop fuel e = some (result, e') →
    e'.Steady ∧ e'.state = .stopped ∧
      ((result = -1 → ∃ q ∈ loopPolls fuel e, q.host.wait4s.head = .error) ↔ ∀ q ∈ loopPolls fuel e, q.Smooth)
  | 0, _, _, _, _, _, _, _, hx => by cases hx
  | fuel + 1, e, h, heng, hs, hl, result, e', hx => by
    obtain ⟨hsteady, heng', hs'⟩ := h.atCondition heng hs
    rw [emblaRunLoop_succ] at hx
    unfold loopPolls at hl ⊢
    by_cases hrun : e.atCondition.state = .running
    · rw [if_pos hrun] at hx hl
      rw [if_pos hrun]
      have hlegit := hl _ List.mem_cons_self
      rcases hsteady.body hlegit heng' hrun with ⟨herr, hsm, e₁, hb, hst, hstop⟩ | ⟨hne, hno, e₁, hb, hst, hstop⟩ |
        ⟨hne, hsm, e₁, hb, hst, heng₁, hs₁⟩
      · -- the poll failed, and it is the last one
        rw [hb] at hx ⊢
        cases hx
        refine ⟨hst, hstop, iff_of_true (fun _ => ⟨_, List.mem_cons_self, herr⟩) fun q hq => ?_⟩
        rw [List.mem_singleton.1 hq]
        exact hsm
      · -- the last poll went well but was not smooth
        rw [hb] at hx ⊢
        cases hx
        refine ⟨hst, hstop, iff_of_false (fun hall => ?_) fun hall => hno (hall _ List.mem_cons_self)⟩
        obtain ⟨q, hq, herr⟩ := hall rfl
        rw [List.mem_singleton.1 hq] at herr
        exact hne herr
      · rw [hb] at hx hl ⊢
        obtain ⟨h1, h2, h3⟩ := Steady.loop fuel e₁ hst heng₁ hs₁ (fun q hq => hl q (List.mem_cons_of_mem _ hq))
          result e' hx
        refine ⟨h1, h2, ?_⟩
        simp only [List.mem_cons, exists_eq_or_imp, forall_eq_or_imp, hne, false_or, hsm, true_and]
        exact h3
    · rw [if_neg hrun] at hx ⊢
      have hstopping : e.atCondition.state = .stopping := by
        cases hc : e.atCondition.state with
        | stopped => exact absurd hc hs'
        | running => exact absurd hc hrun
        | stopping => rfl
      obtain ⟨e₁, hsh, h1, h2⟩ := hsteady.shutdown hstopping
      rw [if_pos hstopping, hsh] at hx
      cases hx
      exact ⟨h1, h2, iff_of_true (fun hc => by cases hc) fun q hq => by cases hq⟩

/-! ## The call -/

/-- The states in which `embla_run` polls. -/
def runPolls (fuel : Nat) (e : Embla) : List Embla :=
  if e.state ≠ .stopped then []
  else if e.scheduler.count > 0 then
    let (result, e) := emblaDispatch { e with state := .running }
    if result ≠ 0 then [] else loopPolls fuel e
  else loopPolls fuel { e with state := .running }

/-- The dispatch on entry is not needed or goes through. -/
def Enterable (e : Embla) : Prop := e.scheduler.count = 0 ∨ (e.scheduler.current = none ∧ e.FrontReady)

theorem Steady.run (h : e.Steady) (hs : e.state = .stopped) {fuel : Nat} (hl : ∀ q ∈ runPolls fuel e, q.Legit)
    {result : Int} (hx : emblaRun fuel e = some (result, e')) :
    e'.Steady ∧ e'.state = .stopped ∧
      ((result = -1 → ∃ q ∈ runPolls fuel e, q.host.wait4s.head = .error) ↔
        e.Enterable ∧ ∀ q ∈ runPolls fuel e, q.Smooth) := by
  have hrunning : EmblaState.running ≠ .stopped := fun hc => by cases hc
  have hsteady := h.withState .running
  unfold emblaRun at hx
  unfold runPolls at hl ⊢
  rw [if_neg (not_not.2 hs)] at hx hl
  rw [if_neg (not_not.2 hs)]
  simp only at hx
  by_cases hpos : e.scheduler.count > 0
  · rw [if_pos hpos] at hx hl
    rw [if_pos hpos]
    simp only at hl ⊢
    have hentry : e.Enterable ↔ e.scheduler.current = none ∧ e.FrontReady := or_iff_right (by omega)
    rw [hentry]
    -- a dispatch that is refused ends the call before the first poll
    have hrefused : ∀ e₁, emblaDispatch { e with state := .running } = (-1, e₁) → e₁.Steady →
        ¬ (e.scheduler.current = none ∧ e.FrontReady) →
        e'.Steady ∧ e'.state = .stopped ∧ ((result = -1 →
          ∃ q ∈ (if (emblaDispatch { e with state := .running }).1 ≠ 0 then [] else
            loopPolls fuel (emblaDispatch { e with state := .running }).2), q.host.wait4s.head = .error) ↔
          (e.scheduler.current = none ∧ e.FrontReady) ∧
            ∀ q ∈ (if (emblaDispatch { e with state := .running }).1 ≠ 0 then [] else
              loopPolls fuel (emblaDispatch { e with state := .running }).2), q.Smooth) := by
      intro e₁ hd hst hno
      rw [hd] at hx ⊢
      cases hx
      refine ⟨hst.withState .stopped, rfl, iff_of_false (fun hall => ?_) fun hall => hno hall.1⟩
      obtain ⟨q, hq, -⟩ := hall rfl
      cases hq
    by_cases hcur : e.scheduler.current = none
    · rcases hsteady.dispatch hcur hpos with ⟨hfront, e₁, hd, hst, hcur₁, hstate⟩ | ⟨hfront, e₁, hd, hst, -⟩
      · rw [hd] at hx hl ⊢
        obtain ⟨h1, h2, h3⟩ := Steady.loop fuel e₁ hst (.inl hcur₁) (by rw [hstate]; exact hrunning) hl result e' hx
        refine ⟨h1, h2, h3.trans ?_⟩
        exact ⟨fun hall => ⟨⟨hcur, hfront⟩, hall⟩, fun hall => hall.2⟩
      · exact hrefused e₁ hd hst fun hc => hfront hc.2
    · exact hrefused _ (dispatch_busy hcur) hsteady fun hc => hcur hc.1
  · rw [if_neg hpos] at hx hl
    rw [if_neg hpos]
    have hzero : e.scheduler.count = 0 := by omega
    obtain ⟨h1, h2, h3⟩ := Steady.loop fuel _ hsteady (.inr hzero) hrunning hl result e' hx
    exact ⟨h1, h2, h3.trans ⟨fun hall => ⟨.inl hzero, hall⟩, fun hall => hall.2⟩⟩

end Embla

/-! ## Runs of the runtime -/

inductive RuntimeOp
  | spawn (name : String)
  | spawnChild (parent : ProcessPtr) (name : String)
  | terminate (process : ProcessPtr)
  | stopProcess (process : ProcessPtr)
  | continueProcess (process : ProcessPtr)
  | kill (process : ProcessPtr)
  | signalGroup (group : GroupPtr) (signal : Signal)
  | stop
  | run (fuel : Nat)

/-- The runtime after the operation, `none` while it has not returned. -/
def RuntimeOp.exec : RuntimeOp → Embla → Option Embla
  | .spawn name, e => some (emblaSpawn name e).2
  | .spawnChild parent name, e => some (emblaSpawnChild parent name e).2
  | .terminate process, e => some (emblaTerminate process e).2
  | .stopProcess process, e => some (emblaStopProcess process e).2
  | .continueProcess process, e => some (emblaContinueProcess process e).2
  | .kill process, e => some (emblaKill process e).2
  | .signalGroup group signal, e => some (emblaSignalGroup group signal e).2
  | .stop, e => some (emblaStop e)
  | .run fuel, e => (emblaRun fuel e).map Prod.snd

/-- Parents are tracked, the host hands out no pid that a tracked process holds, and during a run it
reports of each tracked child only what that child can do. -/
def RuntimeOp.Legit (e : Embla) : RuntimeOp → Prop
  | .spawn _ => e.FreshFork
  | .spawnChild parent _ => e.Tracked parent ∧ e.FreshFork
  | .run fuel => ∀ q ∈ e.runPolls fuel, q.Legit
  | _ => True

namespace Embla

variable {e e' : Embla}

/-- What an operation is: a spawn, a call that only signals, a request to stop or a run. -/
inductive RuntimeTurn (op : RuntimeOp) (e e' : Embla) : Prop
  | spawned (name : String) (hop : op = .spawn name) (hx : e' = (emblaSpawn name e).2)
  | spawnedChild (parent : ProcessPtr) (name : String) (hop : op = .spawnChild parent name)
      (hx : e' = (emblaSpawnChild parent name e).2)
  | signalled (hs : e.Signalled e')
  | stopping (hop : op = .stop) (hx : e' = emblaStop e)
  | ran (fuel : Nat) (result : Int) (hop : op = .run fuel) (hret : emblaRun fuel e = some (result, e'))

theorem runtimeTurn {op : RuntimeOp} (hx : op.exec e = some e') : RuntimeTurn op e e' := by
  cases op with
  | spawn name =>
    cases hx
    exact .spawned name rfl rfl
  | spawnChild parent name =>
    cases hx
    exact .spawnedChild parent name rfl rfl
  | terminate process =>
    cases hx
    unfold emblaTerminate
    split
    · exact .signalled (.refl e)
    · exact .signalled (executorSignal_signalled ..)
  | stopProcess process =>
    cases hx
    unfold emblaStopProcess
    split
    · exact .signalled (.refl e)
    · exact .signalled (executorSignal_signalled ..)
  | continueProcess process =>
    cases hx
    unfold emblaContinueProcess
    split
    · exact .signalled (.refl e)
    · exact .signalled (executorSignal_signalled ..)
  | kill process =>
    cases hx
    unfold emblaKill
    split
    · exact .signalled (.refl e)
    · exact .signalled (executorSignal_signalled ..)
  | signalGroup group signal =>
    cases hx
    exact .signalled ⟨emblaSignalGroup_host group signal e, emblaSignalGroup_moves none group signal e⟩
  | stop =>
    cases hx
    exact .stopping rfl rfl
  | run fuel =>
    obtain ⟨⟨result, e₁⟩, hret, rfl⟩ := Option.map_eq_some_iff.1 hx
    exact .ran fuel result rfl hret

theorem Steady.exec (h : e.Steady) (hs : e.state = .stopped) {op : RuntimeOp} (hl : op.Legit e)
    (hx : op.exec e = some e') : e'.Steady ∧ e'.state = .stopped := by
  cases runtimeTurn hx with
  | spawned name hop he =>
    subst hop he
    obtain ⟨h1, h2⟩ := h.spawn hl name
    exact ⟨h1, h2.trans hs⟩
  | spawnedChild parent name hop he =>
    subst hop he
    obtain ⟨h1, h2⟩ := h.spawnChild hl.2 hl.1 name
    exact ⟨h1, h2.trans hs⟩
  | signalled hsignal =>
    refine ⟨h.moved hsignal.1 hsignal.2, ?_⟩
    obtain ⟨host, rfl⟩ := hsignal.1
    exact hs
  | stopping hop he =>
    -- a runtime that stands still has nothing to stop
    subst he
    unfold emblaStop
    rw [if_pos (by rw [hs]; exact fun hc => by cases hc)]
    exact ⟨h, hs⟩
  | ran fuel result hop hret =>
    subst hop
    obtain ⟨h1, h2, -⟩ := h.run hs hl hret
    exact ⟨h1, h2⟩

end Embla

/-- A call of `embla_run` fails only for a wrong state or a failed poll exactly when, called on a
stopped runtime, it gets past its first dispatch and all its polls are smooth. -/
theorem emblaRun_gives_up_iff {host : Host} (halloc : ∀ n, host.allocs.get n = true) {e e' : Embla}
    (hrun : Runs RuntimeOp.exec RuntimeOp.Legit (emblaCreate host) e) {fuel : Nat} {result : Int}
    (hlegit : RuntimeOp.Legit e (.run fuel)) (hx : emblaRun fuel e = some (result, e')) :
    (result = -1 → e.state ≠ .stopped ∨ ∃ q ∈ e.runPolls fuel, q.host.wait4s.head = .error) ↔
      (e.state = .stopped → e.Enterable ∧ ∀ q ∈ e.runPolls fuel, q.Smooth) := by
  obtain ⟨h, hs⟩ := hrun.holds (I := fun e => e.Steady ∧ e.state = .stopped)
    (fun _ _ _ h hok hx => h.1.exec h.2 hok hx) ⟨Embla.steady_create halloc, rfl⟩
  simp only [hs, ne_eq, not_true_eq_false, false_or, forall_const]
  exact (h.run hs hlegit hx).2.2

/-- A report of the child with pid `n + 1`. -/
def reportOf (n : Nat) (status : WaitStatus) : ChildEvent := { exitOf n 0 with status := status }

/-- Two processes on a host that makes these reports. -/
def twoSpawned (answers : List Wait4Answer) : Embla :=
  (emblaSpawn "second" (emblaSpawn "first" (emblaCreate (.generous answers [] 0))).2).2

theorem twoSpawned_run (answers : List Wait4Answer) :
    Runs RuntimeOp.exec RuntimeOp.Legit (emblaCreate (.generous answers [] 0)) (twoSpawned answers) := by
  refine ((Runs.refl _).next (.spawn "first") (fun _ _ p hp => ?_) rfl).next (.spawn "second") ?_ rfl
  · cases hp
  · intro child hc p hp
    have hone : p = 0 := List.mem_singleton.1 hp
    subst hone
    cases hc
    exact fun hc => by cases hc

/-- The second process is stopped and continued while it waits for its turn, then the first exits. -/
def continuedInQueue : List Wait4Answer :=
  [.event (reportOf 1 (.stopped 19)), .event (reportOf 1 .continued), .event (exitOf 0 0)]

/-- The second process cannot be dispatched because it is running already. -/
theorem emblaRun_gives_up_after_continue :
    Runs RuntimeOp.exec RuntimeOp.Legit (emblaCreate (.generous continuedInQueue [] 0)) (twoSpawned continuedInQueue) ∧
    RuntimeOp.Legit (twoSpawned continuedInQueue) (.run 9) ∧ (twoSpawned continuedInQueue).state = .stopped ∧
    (∀ q ∈ (twoSpawned continuedInQueue).runPolls 9, q.host.wait4s.head ≠ .error) ∧
    ∃ e', emblaRun 9 (twoSpawned continuedInQueue) = some (-1, e') := by
  refine ⟨twoSpawned_run _, ?_, by decide +kernel, by decide +kernel, ?_⟩
  · unfold RuntimeOp.Legit
    decide +kernel
  · have hend : (emblaRun 9 (twoSpawned continuedInQueue)).map Prod.fst = some (-1) := by decide +kernel
    obtain ⟨⟨result, e'⟩, hx, rfl⟩ := Option.map_eq_some_iff.1 hend
    exact ⟨e', hx⟩

/-- Both exit in the order of their turns. -/
def exitsInTurn : List Wait4Answer := [.event (exitOf 0 0), .event (exitOf 1 0)]

theorem emblaRun_gives_up_not_on_exits :
    (∃ e', emblaRun 9 (twoSpawned exitsInTurn) = some (0, e')) ∧
    (twoSpawned exitsInTurn).Enterable ∧
    ∀ q ∈ (twoSpawned exitsInTurn).runPolls 9, q.Smooth := by
  have hend : (emblaRun 9 (twoSpawned exitsInTurn)).map Prod.fst = some 0 := by decide +kernel
  obtain ⟨⟨result, e'⟩, hx, hr⟩ := Option.map_eq_some_iff.1 hend
  cases hr
  refine ⟨⟨e', hx⟩, (emblaRun_gives_up_iff (fun _ => rfl) (twoSpawned_run _) ?_ hx).1 (fun hc => ?_) (by decide +kernel)⟩
  · unfold RuntimeOp.Legit
    decide +kernel
  · cases hc

end EmblaOs
