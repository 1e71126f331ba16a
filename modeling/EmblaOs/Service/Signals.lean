/-
Whom the signals of a program reach that works with processes and with services. Stopping or killing a
service signals its process; as long as the service has a tracked one, and fork hands out no pid of a
tracked process, every signal to a single process reaches a child that Embla has not collected.
-/
import EmblaOs.Process.Signals
import EmblaOs.Service.Orchestrator

namespace EmblaOs

open Lib

inductive CallOp
  | runtime (op : SignalOp)
  | start (service : ServicePtr)
  | stop (service : ServicePtr)
  | kill (service : ServicePtr)
  | reap (service : ServicePtr)

/-- The process of the service, if it has one, is tracked. -/
def World.Holds (w : World) (s : ServicePtr) : Prop := ∀ p, (w.service s).process = some p → w.embla.Tracked p

namespace CallOp

def exec : CallOp → World → Option World
  | runtime op, w => (op.exec w.embla).map w.withEmbla
  | start service, w => some (serviceStart service w).2
  | stop service, w => some (serviceStop service w).2
  | kill service, w => some (serviceKill service w).2
  | reap service, w => some (serviceReap service w).2

/-- The processes are tracked, and fork hands out no pid of a tracked process. -/
def Fresh (w : World) : CallOp → Prop
  | runtime op => op.Fresh w.embla
  | start _ => w.embla.FreshFork
  | stop service => w.Holds service
  | kill service => w.Holds service
  | reap service => w.Holds service

end CallOp

namespace Embla

/-- The tables are in order, the pids differ, every live process has its child and every signal so far
reached one. -/
structure Minded (e : Embla) : Prop where
  sound : e.Sound
  distinct : e.DistinctPids
  covered : e.Covered
  onTarget : Each HostCall.OnTarget e.host.trace

variable {e e' : Embla} {p : ProcessPtr}

theorem minded_create {host : Host} (ht : host.trace = []) : (emblaCreate host).Minded := by
  refine ⟨sound_create host, fun _ _ hp => absurd hp List.not_mem_nil, covered_create host, ?_⟩
  rw [show (emblaCreate host).host.trace = [] from ht]
  exact each_nil

theorem Minded.exec (h : e.Minded) (op : SignalOp) (hop : op.Fresh e) (hx : op.exec e = some e') : e'.Minded :=
  ⟨h.sound.signalOp hop.1 hx, h.distinct.exec h.sound.inv hop hx, h.covered.exec h.sound (hop.clear h.distinct) hx,
    h.covered.onTarget h.sound hop.1 hx h.onTarget⟩

/-- Reading the clock. -/
theorem Minded.ticked (h : e.Minded) : e.ticked.Minded :=
  ⟨h.sound.onlyHost ⟨_, rfl⟩, h.distinct.onlyHost ⟨_, rfl⟩, h.covered.called ⟨_, rfl⟩ fun _ _ => Iff.rfl, h.onTarget⟩

end Embla

variable {w w' : World}

/-- Every call of a service comes down to calls of the runtime on its process. -/
theorem CallOp.exec_minded (h : w.embla.Minded) {op : CallOp} (hop : op.Fresh w) (hx : op.exec w = some w') :
    w'.embla.Minded := by
  cases op with
  | runtime op =>
    obtain ⟨e, he, rfl⟩ := Option.map_eq_some_iff.1 hx
    exact h.exec op hop he
  | start s =>
    cases hx
    rcases serviceStart_cases s w with ⟨-, hx⟩ | ⟨-, e, hspawn, hx⟩ | ⟨-, p, e, hspawn, hx⟩ <;> rw [hx]
    · exact h
    -- the spawn fails, or succeeds and the clock is read
    all_goals
      have hspawned := h.exec (.spawn (w.service s).name) ⟨trivial, fun _ => hop⟩ rfl
      rw [hspawn] at hspawned
    · exact hspawned
    · exact hspawned.ticked
  | stop s =>
    cases hx
    rcases serviceStop_cases s w with ⟨-, hx⟩ | ⟨-, p, hp, hx⟩ <;> rw [hx]
    · exact h
    · exact h.exec (.terminate p) ⟨hop p hp, fun hc => hc.elim⟩ rfl
  | kill s =>
    cases hx
    rcases serviceKill_cases s w with ⟨-, hx⟩ | ⟨-, p, hp, hx⟩ <;> rw [hx]
    · exact h
    · exact h.exec (.kill p) ⟨hop p hp, fun hc => hc.elim⟩ rfl
  | reap s =>
    cases hx
    rcases serviceReap_cases s w with ⟨r, -, hx, -⟩ | ⟨p, -, hp, -, ⟨-, hx⟩ | ⟨-, hx⟩⟩ <;> rw [hx]
    · exact h
    all_goals exact h.exec (.reapProcess (w.embla.process p).id) ⟨trivial, fun hc => hc.elim⟩ rfl

/-- In every run every signal to a single process reaches a child that Embla forked and has not
collected, and every tracked process that has not ended has such a child. -/
theorem signals_reach_own_children {host : Host} (hw : w.embla = emblaCreate host) (ht : host.trace = [])
    (h : Runs CallOp.exec CallOp.Fresh w w') :
    (∀ later pid signal answer earlier, w'.embla.host.trace = later ++ .killed pid signal answer :: earlier →
      Uncollected earlier pid) ∧
    ∀ p, w'.embla.Tracked p → (w'.embla.process p).state ≠ .terminated →
      Uncollected w'.embla.host.trace (w'.embla.process p).hostId := by
  have hm : w'.embla.Minded := by
    refine h.holds (I := fun w => w.embla.Minded) (fun w w' op hI hop hx => CallOp.exec_minded hI hop hx) ?_
    rw [hw]
    exact Embla.minded_create ht
  constructor
  · intro later pid signal answer earlier hx
    have htargets := hm.onTarget
    rw [hx] at htargets
    exact htargets.at
  · intro p hp hlive
    exact hm.covered.uncollected hm.sound.inv ⟨hp, hlive⟩

/-- A service that was stopped, ended and was reaped. -/
def stoppedAndReaped : World :=
  let w := World.boot (serviceCreate "web") (.generous [.event (exitOf 0 0)] [] 0)
  let w := (serviceStop 0 (serviceStart 0 w).2).2
  (serviceReap 0 (w.withEmbla (emblaHandleNextEvent w.embla))).2

/-- Its next instance is killed: that one has a pid that was not collected. -/
theorem signals_reach_own_children_of_restart :
    Uncollected [.forked 2 0, .reported (exitOf 0 0), .killed 1 .sigterm .ok, .forked 1 0] 2 := by
  have hstart : ∀ host : Host, (emblaCreate host).FreshFork := fun _ _ _ _ hp => absurd hp List.not_mem_nil
  have hempty : stoppedAndReaped.embla.processManager.processes = [] := by decide +kernel
  have hagain : stoppedAndReaped.embla.FreshFork := by
    intro _ _ p hp
    unfold Embla.Tracked at hp
    rw [hempty] at hp
    exact absurd hp List.not_mem_nil
  have hholds : ∀ (w : World) (p : ProcessPtr), w.embla.processManager.processes = [p] →
      (w.service 0).process = some p → w.Holds 0 := by
    intro w p htable hprocess q hq
    rw [hprocess] at hq
    cases hq
    unfold Embla.Tracked
    rw [htable]
    exact List.mem_singleton_self p
  have hreaped : Runs CallOp.exec CallOp.Fresh
      (.boot (serviceCreate "web") (.generous [.event (exitOf 0 0)] [] 0)) stoppedAndReaped :=
    ((((Runs.refl _).next (.start 0) (hstart _) rfl).next (.stop 0)
      (hholds _ 0 (by decide +kernel) (by decide +kernel)) rfl).next
      (.runtime .handleEvent) ⟨trivial, fun hc => hc.elim⟩ rfl).next (.reap 0)
      (hholds _ 0 (by decide +kernel) (by decide +kernel)) rfl
  have hrun := (hreaped.next (.start 0) hagain rfl).next (.kill 0)
    (hholds _ 1 (by decide +kernel) (by decide +kernel)) rfl
  exact (signals_reach_own_children rfl rfl hrun).1 [] 2 .sigkill .ok _ (by decide +kernel)

end EmblaOs
