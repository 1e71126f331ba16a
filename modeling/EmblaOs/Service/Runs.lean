/-
Runs as sequences of elementary calls. `start_all` and `stop_all` do nothing to the world but call
the lifecycle functions, drain events, read the clock and allocate; so what every elementary call
keeps, every run keeps.
-/
import EmblaOs.Service.Orchestrator

namespace EmblaOs

open Lib Relation

/-- `h'` is `h` further on in its memory and its clock. -/
def Host.Aged (h h' : Host) : Prop := ∃ allocs clock, h' = { h with allocs := allocs, clock := clock }

theorem Host.Aged.trans {a b c : Host} (h : a.Aged b) (h' : b.Aged c) : a.Aged c := by
  obtain ⟨allocs, clock, rfl⟩ := h
  obtain ⟨allocs', clock', rfl⟩ := h'
  exact ⟨allocs', clock', rfl⟩

/-- The elementary calls. -/
inductive World.Step : World → World → Prop
  | start (s : ServicePtr) (w : World) : Step w (serviceStart s w).2
  | stop (s : ServicePtr) (w : World) : Step w (serviceStop s w).2
  | kill (s : ServicePtr) (w : World) : Step w (serviceKill s w).2
  | reap (s : ServicePtr) (w : World) : Step w (serviceReap s w).2
  | tick (s : ServicePtr) (w : World) : Step w (serviceTick s w).2
  | drain (w : World) : Step w w.drainOneEvent.2
  | aged (w : World) {host : Host} (h : w.embla.host.Aged host) : Step w (w.withEmbla { w.embla with host := host })

/-- The elementary calls made by one operation. -/
abbrev World.Steps : World → World → Prop := ReflTransGen World.Step

theorem World.Step.clock (w : World) : World.Step w w.monotonicNow.2 := .aged w ⟨_, _, rfl⟩

theorem World.Step.malloc (w : World) : World.Step w w.malloc.2 := .aged w ⟨_, _, rfl⟩

/-! ## The operations -/

/-- `w` with other memory left. -/
def World.withAllocs (w : World) (allocs : Stream' Bool) : World :=
  w.withEmbla { w.embla with host := { w.embla.host with allocs := allocs } }

theorem computeStartOrder_allocs {heap : Heap Service} {registry : ServiceRegistry} {outOrder : Nat → ServicePtr}
    {outCount : Nat} {host : Host} {result : Int} {out : Nat → ServicePtr} {count : Nat} {host' : Host}
    (h : serviceRegistryComputeStartOrder heap registry outOrder outCount host = some (result, out, count, host')) :
    ∃ allocs, host' = { host with allocs := allocs } := by
  unfold serviceRegistryComputeStartOrder Host.malloc at h
  simp only at h
  split at h
  · cases h
    exact ⟨_, rfl⟩
  split at h
  · cases h
    exact ⟨_, rfl⟩
  split at h
  · cases h
    exact ⟨_, rfl⟩
  split at h
  · cases h
  · split at h <;> cases h <;> exact ⟨_, rfl⟩

/-- Fetching the order allocates and does nothing else. -/
theorem World.startOrder_allocs {registry : ServiceRegistry} {w w' : World} {order : Option (List ServicePtr)}
    (h : w.startOrder registry = some (order, w')) : ∃ allocs, w' = w.withAllocs allocs := by
  unfold World.startOrder at h
  simp only at h
  split at h
  · cases h
    exact ⟨_, rfl⟩
  split at h
  · cases h
  · rename_i heq
    obtain ⟨allocs, rfl⟩ := computeStartOrder_allocs heq
    split at h <;> cases h <;> exact ⟨allocs, rfl⟩

theorem World.startOrder_aged {registry : ServiceRegistry} {w w' : World} {order : Option (List ServicePtr)}
    (h : w.startOrder registry = some (order, w')) :
    ∃ host, w.embla.host.Aged host ∧ w' = w.withEmbla { w.embla with host := host } := by
  obtain ⟨allocs, rfl⟩ := World.startOrder_allocs h
  exact ⟨_, ⟨allocs, w.embla.host.clock, rfl⟩, rfl⟩

theorem startAllLoop_steps (registry : ServiceRegistry) :
    ∀ (order : List ServicePtr) (started : Int) (w : World), w.Steps (startAllLoop registry order started w).2
  | [], _, _ => .refl
  | s :: rest, started, w => by
    unfold startAllLoop
    split
    · exact startAllLoop_steps registry rest started w
    · exact .head (.start s w) (startAllLoop_steps registry rest _ _)

theorem serviceRegistryStartAll_steps {registry : ServiceRegistry} {w : World} {result : Int × World}
    (h : serviceRegistryStartAll registry w = some result) : w.Steps result.2 := by
  unfold serviceRegistryStartAll at h
  split at h
  · cases h
    exact .refl
  split at h
  · cases h
  · rename_i heq
    obtain ⟨host, haged, rfl⟩ := World.startOrder_aged heq
    cases h
    exact .single (.aged w haged)
  · rename_i heq
    obtain ⟨host, haged, rfl⟩ := World.startOrder_aged heq
    cases h
    exact .head (.aged w haged) (startAllLoop_steps registry _ _ _)

/-- A round of the wait for `s`: what it returns, `none` for another round, and the world it leaves. -/
inductive WaitRound (s : ServicePtr) (deadline : ℚ) (w : World) : Option Int → World → Prop
  | late (hlate : deadline ≤ w.monotonicNow.1) : WaitRound s deadline w (some 0) w.monotonicNow.2
  | reaped (hearly : w.monotonicNow.1 < deadline) (hone : (serviceReap s w.monotonicNow.2).1 = 1) :
      WaitRound s deadline w (some 1) (serviceReap s w.monotonicNow.2).2
  | reapFailed (hearly : w.monotonicNow.1 < deadline) (hneg : (serviceReap s w.monotonicNow.2).1 < 0) :
      WaitRound s deadline w (some (-1)) (serviceReap s w.monotonicNow.2).2
  | pollFailed (hearly : w.monotonicNow.1 < deadline)
      (halive : ¬ ((serviceReap s w.monotonicNow.2).1 = 1 ∨ (serviceReap s w.monotonicNow.2).1 < 0))
      (herr : (serviceReap s w.monotonicNow.2).2.drainOneEvent.1 < 0) :
      WaitRound s deadline w (some (-1)) (serviceReap s w.monotonicNow.2).2.drainOneEvent.2
  | again (hearly : w.monotonicNow.1 < deadline)
      (halive : ¬ ((serviceReap s w.monotonicNow.2).1 = 1 ∨ (serviceReap s w.monotonicNow.2).1 < 0))
      (hok : ¬ (serviceReap s w.monotonicNow.2).2.drainOneEvent.1 < 0) :
      WaitRound s deadline w none (serviceReap s w.monotonicNow.2).2.drainOneEvent.2

theorem waitForTermination_round (s : ServicePtr) (deadline : ℚ) (w : World) :
    ∃ outcome w', WaitRound s deadline w outcome w' ∧
      ∀ fuel, serviceOrchestratorWaitForTermination s deadline (fuel + 1) w =
        match outcome with
        | some terminated => some (terminated, w')
        | none => serviceOrchestratorWaitForTermination s deadline fuel w' := by
  have hunfold : ∀ fuel, serviceOrchestratorWaitForTermination s deadline (fuel + 1) w =
      if w.monotonicNow.1 < deadline then
        if (serviceReap s w.monotonicNow.2).1 = 1 then some (1, (serviceReap s w.monotonicNow.2).2)
        else if (serviceReap s w.monotonicNow.2).1 < 0 then some (-1, (serviceReap s w.monotonicNow.2).2)
        else if (serviceReap s w.monotonicNow.2).2.drainOneEvent.1 < 0 then
          some (-1, (serviceReap s w.monotonicNow.2).2.drainOneEvent.2)
        else serviceOrchestratorWaitForTermination s deadline fuel (serviceReap s w.monotonicNow.2).2.drainOneEvent.2
      else some (0, w.monotonicNow.2) := fun _ => rfl
  by_cases hearly : w.monotonicNow.1 < deadline
  swap
  · exact ⟨some 0, _, .late (not_lt.1 hearly), fun fuel => by rw [hunfold, if_neg hearly]⟩
  by_cases hone : (serviceReap s w.monotonicNow.2).1 = 1
  · exact ⟨some 1, _, .reaped hearly hone, fun fuel => by rw [hunfold, if_pos hearly, if_pos hone]⟩
  by_cases hneg : (serviceReap s w.monotonicNow.2).1 < 0
  · exact ⟨some (-1), _, .reapFailed hearly hneg, fun fuel => by rw [hunfold, if_pos hearly, if_neg hone, if_pos hneg]⟩
  have halive := not_or.2 ⟨hone, hneg⟩
  by_cases herr : (serviceReap s w.monotonicNow.2).2.drainOneEvent.1 < 0
  · refine ⟨some (-1), _, .pollFailed hearly halive herr, fun fuel => ?_⟩
    rw [hunfold, if_pos hearly, if_neg hone, if_neg hneg, if_pos herr]
  · refine ⟨none, _, .again hearly halive herr, fun fuel => ?_⟩
    rw [hunfold, if_pos hearly, if_neg hone, if_neg hneg, if_neg herr]

theorem WaitRound.steps {s : ServicePtr} {deadline : ℚ} {w w' : World} {outcome : Option Int}
    (h : WaitRound s deadline w outcome w') : w.Steps w' := by
  have hclock : w.Steps w.monotonicNow.2 := .single (.clock w)
  have hreap : w.Steps (serviceReap s w.monotonicNow.2).2 := hclock.tail (.reap s _)
  cases h with
  | late => exact hclock
  | reaped => exact hreap
  | reapFailed => exact hreap
  | pollFailed => exact hreap.tail (.drain _)
  | again => exact hreap.tail (.drain _)

theorem waitForTermination_steps (s : ServicePtr) (deadline : ℚ) :
    ∀ (fuel : Nat) (w : World) (result : Int × World),
      serviceOrchestratorWaitForTermination s deadline fuel w = some result → w.Steps result.2
  | 0, _, _, h => by cases h
  | fuel + 1, w, result, h => by
    obtain ⟨outcome, w', hround, hw⟩ := waitForTermination_round s deadline w
    rw [hw] at h
    cases outcome with
    | some terminated =>
      cases h
      exact hround.steps
    | none => exact hround.steps.trans (waitForTermination_steps s deadline fuel w' result h)

theorem stopAllEscalate_steps {s : ServicePtr} {fuel : Nat} {terminated : Int} {w : World} {result : Int × World}
    (h : stopAllEscalate s fuel terminated w = some result) : w.Steps result.2 := by
  unfold stopAllEscalate at h
  simp only at h
  have hkill : w.Steps (serviceKill s w).2 := .single (.kill s w)
  split at h
  · exact (hkill.tail (.clock _)).trans (waitForTermination_steps s _ fuel _ result h)
  · cases h
    exact hkill

theorem stopAllOne_steps {s : ServicePtr} {timeoutSeconds : ℚ} {fuel : Nat} {w : World} {result : Int × World}
    (h : stopAllOne s timeoutSeconds fuel w = some result) : w.Steps result.2 := by
  unfold stopAllOne at h
  simp only at h
  have hstop : w.Steps (serviceStop s w).2 := .single (.stop s w)
  split at h
  · cases h
    exact .refl
  split at h
  · cases h
    exact hstop
  split at h
  · cases h
  · rename_i heq
    have hwait := (hstop.tail (.clock _)).trans (waitForTermination_steps s _ fuel _ _ heq)
    split at h
    · exact hwait.trans (stopAllEscalate_steps h)
    · cases h
      exact hwait

theorem stopAllLoop_steps (timeoutSeconds : ℚ) (fuel : Nat) :
    ∀ (order : List ServicePtr) (stopped : Int) (w : World) (result : Int × World),
      stopAllLoop timeoutSeconds fuel order stopped w = some result → w.Steps result.2
  | [], _, _, _, h => by
    cases h
    exact .refl
  | s :: rest, stopped, w, result, h => by
    unfold stopAllLoop at h
    split at h
    · cases h
    · rename_i heq
      exact (stopAllOne_steps heq).trans (stopAllLoop_steps timeoutSeconds fuel rest _ _ result h)

theorem serviceRegistryStopAll_steps {registry : ServiceRegistry} {timeoutSeconds : ℚ} {fuel : Nat} {w : World}
    {result : Int × World} (h : serviceRegistryStopAll registry timeoutSeconds fuel w = some result) :
    w.Steps result.2 := by
  unfold serviceRegistryStopAll at h
  split at h
  · cases h
    exact .refl
  split at h
  · cases h
  · rename_i heq
    obtain ⟨host, haged, rfl⟩ := World.startOrder_aged heq
    cases h
    exact .single (.aged w haged)
  · rename_i heq
    obtain ⟨host, haged, rfl⟩ := World.startOrder_aged heq
    exact .head (.aged w haged) (stopAllLoop_steps timeoutSeconds fuel _ _ _ result h)

theorem Op.exec_steps {op : Op} {w w' : World} (h : op.exec w = some w') : w.Steps w' := by
  cases op with
  | start s => cases h; exact .single (.start s w)
  | stop s => cases h; exact .single (.stop s w)
  | kill s => cases h; exact .single (.kill s w)
  | reap s => cases h; exact .single (.reap s w)
  | tick s => cases h; exact .single (.tick s w)
  | drain => cases h; exact .single (.drain w)
  | startAll registry =>
    obtain ⟨result, hx, rfl⟩ := Option.map_eq_some_iff.1 h
    exact serviceRegistryStartAll_steps hx
  | stopAll registry timeoutSeconds fuel =>
    obtain ⟨result, hx, rfl⟩ := Option.map_eq_some_iff.1 h
    exact serviceRegistryStopAll_steps hx

/-! ## Invariants of runs -/

theorem World.Steps.invariant {I : World → Prop} (hstep : ∀ w w', I w → World.Step w w' → I w') {w w' : World}
    (h : w.Steps w') (hw : I w) : I w' := by
  induction h with
  | refl => exact hw
  | tail _ hs ih => exact hstep _ _ ih hs

/-- What every elementary call keeps holds in every world of a run. -/
theorem RunWhere.invariant {ok : World → Op → Prop} {I : World → Prop}
    (hstep : ∀ w w', I w → World.Step w w' → I w') {w w' : World} (h : RunWhere ok w w') (hw : I w) : I w' := by
  induction h with
  | refl => exact hw
  | step _ _ hx ih => exact World.Steps.invariant hstep (Op.exec_steps hx) ih

theorem RunWhere.run {ok : World → Op → Prop} {w w' : World} (h : RunWhere ok w w') : Run w w' :=
  h.mono fun _ _ _ => trivial

/-! ## The supervisor as a run -/

/-- The operations of `service_registry_supervise` on `registry`. -/
def Op.OfSupervisor (registry : ServiceRegistry) : Op → Prop
  | .drain => True
  | .tick s => s ∈ registry.services
  | .startAll r => r = registry
  | .stopAll r _ _ => r = registry
  | _ => False

section Supervise

variable {registry : ServiceRegistry} {w₀ w w' : World}

theorem superviseDrain_run : ∀ (fuel : Nat) (w : World), RunWhere (fun _ => Op.OfSupervisor registry) w₀ w →
    superviseDrain fuel w = some w' → RunWhere (fun _ => Op.OfSupervisor registry) w₀ w'
  | 0, _, _, hx => by cases hx
  | fuel + 1, w, h, hx => by
    have hnext : RunWhere (fun _ => Op.OfSupervisor registry) w₀ w.drainOneEvent.2 := h.next .drain trivial rfl
    unfold superviseDrain at hx
    simp only at hx
    split at hx
    · exact superviseDrain_run fuel _ hnext hx
    · cases hx
      exact hnext

theorem superviseTicks_run : ∀ (services : List ServicePtr) (w : World), (∀ s ∈ services, s ∈ registry.services) →
    RunWhere (fun _ => Op.OfSupervisor registry) w₀ w →
    RunWhere (fun _ => Op.OfSupervisor registry) w₀ (superviseTicks services w)
  | [], _, _, h => h
  | s :: rest, w, hin, h => by
    unfold superviseTicks
    refine superviseTicks_run rest _ (fun t ht => hin t (List.mem_cons_of_mem _ ht)) ?_
    exact h.next (.tick s) (hin s List.mem_cons_self) rfl

theorem superviseLoop_run {shutdown : Nat → Bool} {fuel : Nat} : ∀ (rounds round : Nat) (w : World),
    RunWhere (fun _ => Op.OfSupervisor registry) w₀ w → superviseLoop registry shutdown fuel rounds round w = some w' →
    RunWhere (fun _ => Op.OfSupervisor registry) w₀ w'
  | 0, _, _, _, hx => by cases hx
  | rounds + 1, round, w, h, hx => by
    unfold superviseLoop at hx
    split at hx
    · cases hx
      exact h
    · rcases hd : superviseDrain fuel w with _ | w₁
      · rw [hd] at hx
        cases hx
      · rw [hd] at hx
        have hdrained := superviseDrain_run fuel w h hd
        exact superviseLoop_run rounds (round + 1) _
          (superviseTicks_run registry.services w₁ (fun _ hs => hs) hdrained) hx

/-- Whatever the supervisor does is a run of starts, drains, ticks and stops of its registry, so what
holds in every such run holds when it returns. -/
theorem serviceRegistrySupervise_run {stopTimeoutSeconds : ℚ} {shutdown : Nat → Bool} {fuel : Nat} {result : Int}
    (hx : serviceRegistrySupervise registry stopTimeoutSeconds shutdown fuel w = some (result, w')) :
    RunWhere (fun _ => Op.OfSupervisor registry) w w' := by
  unfold serviceRegistrySupervise at hx
  rcases hstart : serviceRegistryStartAll registry w with _ | ⟨started, w₁⟩ <;> rw [hstart] at hx
  · cases hx
  have hrun : RunWhere (fun _ => Op.OfSupervisor registry) w w₁ :=
    (Runs.refl w).next (.startAll registry) rfl (congrArg (Option.map Prod.snd) hstart)
  simp only at hx
  split at hx
  · cases hx
    exact hrun
  rcases hloop : superviseLoop registry shutdown fuel fuel 0 w₁ with _ | w₂ <;> rw [hloop] at hx
  · cases hx
  exact (superviseLoop_run fuel 0 w₁ hrun hloop).next (.stopAll registry stopTimeoutSeconds fuel) rfl
    (congrArg (Option.map Prod.snd) hx)

end Supervise

end EmblaOs
