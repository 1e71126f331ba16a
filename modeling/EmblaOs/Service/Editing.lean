/-
Shutting down a registry that was edited while its services ran. `service_registry_stop_all` works
out the order anew from the registry as it is then, so registering, unregistering and adding
dependencies decide whether it can stop anything; ticks do not.
-/
import EmblaOs.Service.StopAll

namespace EmblaOs

open Lib Relation

/-! ## The edits -/

/-- A program's services, its registry and the services that unregistering has destroyed. -/
structure Managed where
  world : World
  registry : ServiceRegistry
  destroyed : List ServicePtr

inductive EditOp
  | register (service : ServicePtr)
  | unregister (name : String)
  | addDependency (service : ServicePtr) (dependencyName : String)
  | tick (service : ServicePtr)

def EditOp.exec : EditOp → Managed → Option Managed
  | .register s, m => some { m with registry := (serviceRegistryRegister m.world.services m.registry s).2 }
  | .unregister name, m => some { m with
      registry := (serviceRegistryUnregister m.world.services m.registry name).2
      destroyed := (serviceRegistryGet m.world.services m.registry name).toList ++ m.destroyed }
  | .addDependency s name, m =>
    let (_, record, host) := serviceAddDependency (m.world.service s) name m.world.embla.host
    some { m with world := (m.world.modifyService s fun _ => record).withEmbla { m.world.embla with host := host } }
  | .tick s, m => some { m with world := (serviceTick s m.world).2 }

/-- A destroyed service is not used again. -/
def EditOp.Valid (m : Managed) : EditOp → Prop
  | .register s => s ∉ m.destroyed
  | .unregister _ => True
  | .addDependency s _ => s ∉ m.destroyed
  | .tick s => s ∉ m.destroyed

/-- Ticks of services that were not destroyed. -/
def EditOp.ValidTick (m : Managed) (op : EditOp) : Prop := op.Valid m ∧ ∃ s, op = .tick s

theorem serviceAddDependency_name (service : Service) (name : String) (host : Host) :
    (serviceAddDependency service name host).2.1.name = service.name := by
  unfold serviceAddDependency
  split
  · rfl
  split
  · rfl
  simp only
  split
  · rfl
  · rfl

namespace World

variable {w w' : World} {registry : ServiceRegistry}

theorem modifyService_shape (w : World) (s : ServicePtr) {f : Service → Service}
    (hf : (f (w.service s)).name = (w.service s).name ∧ (f (w.service s)).dependencies = (w.service s).dependencies) :
    SameShape w (w.modifyService s f) := by
  intro t
  rcases eq_or_ne t s with rfl | hne
  · rw [service_modifyService_self]
    exact hf
  · rw [service_modifyService_of_ne w f hne]
    exact ⟨rfl, rfl⟩

theorem serviceReap_shape (s : ServicePtr) (w : World) : SameShape w (serviceReap s w).2 := by
  intro t
  rcases eq_or_ne t s with rfl | hne
  · rcases serviceReap_self t w with ⟨-, hx | ⟨process, hx⟩⟩ | ⟨-, -, p, -, -, hx⟩ <;> rw [hx] <;> exact ⟨rfl, rfl⟩
  · rw [serviceReap_other hne]
    exact ⟨rfl, rfl⟩

theorem rescheduled_shape (now : ℚ) (service : Service) :
    (service.rescheduled now).name = service.name ∧ (service.rescheduled now).dependencies = service.dependencies := by
  unfold Service.rescheduled
  split <;> exact ⟨rfl, rfl⟩

theorem serviceTick_shape (s : ServicePtr) (w : World) : SameShape w (serviceTick s w).2 := by
  obtain ⟨r, v, -, hv, hout⟩ := serviceTick_ways s w
  rw [hv]
  have hreap := serviceReap_shape s w
  cases hout with
  | waiting => exact fun _ => ⟨rfl, rfl⟩
  | due =>
    have hcleared : SameShape w (w.restartCleared s) :=
      modifyService_shape (w.withEmbla w.embla.ticked) s ⟨rfl, rfl⟩
    exact hcleared.trans (serviceStart_shape s _)
  | idle => exact hreap
  | stopHonoured => exact hreap.trans (modifyService_shape _ s ⟨rfl, rfl⟩)
  | noRestart => exact hreap
  | restart =>
    rw [serviceScheduleRestart_eq]
    refine hreap.trans ?_
    exact modifyService_shape ((serviceReap s w).2.withEmbla (serviceReap s w).2.embla.ticked) s
      (rescheduled_shape _ ((serviceReap s w).2.service s))

/-- What can be ordered depends on the names and the dependencies only. -/
theorem SameShape.dependsOn (h : SameShape w w') : DependsOn w'.services registry = DependsOn w.services registry := by
  funext s d
  have hd : (w'.services.read d).name = (w.services.read d).name := (h d).1
  have hs : (w'.services.read s).dependencies = (w.services.read s).dependencies := (h s).2
  unfold DependsOn
  rw [hd, hs]

theorem SameShape.ordered (h : SameShape w w')
    (hdeps : DependenciesRegistered w.services registry ∧ DependenciesAcyclic w.services registry) :
    DependenciesRegistered w'.services registry ∧ DependenciesAcyclic w'.services registry := by
  constructor
  · intro s hs name hname
    have hdep : (w'.services.read s).dependencies = (w.services.read s).dependencies := (h s).2
    rw [hdep] at hname
    obtain ⟨d, hd, hdn⟩ := hdeps.1 s hs name hname
    exact ⟨d, hd, (h d).1.trans hdn⟩
  · intro s hcycle
    rw [h.dependsOn] at hcycle
    exact hdeps.2 s hcycle

end World

theorem EditOp.exec_reachable {op : EditOp} {m m' : Managed} (h : m.registry.Reachable m.world.services)
    (hx : op.exec m = some m') : m'.registry.Reachable m'.world.services := by
  cases op with
  | register s =>
    cases hx
    exact .register h s
  | unregister name =>
    cases hx
    exact .unregister h name
  | addDependency s name =>
    obtain rfl := Option.some.inj hx
    refine .write h fun t _ => ?_
    change ((m.world.modifyService s fun _ =>
      (serviceAddDependency (m.world.service s) name m.world.embla.host).2.1).service t).name = (m.world.service t).name
    rcases eq_or_ne t s with rfl | hne
    · rw [World.service_modifyService_self]
      exact serviceAddDependency_name ..
    · rw [World.service_modifyService_of_ne _ _ hne]
  | tick s =>
    cases hx
    exact .write h fun t _ => (World.serviceTick_shape s m.world t).1

/-! ## Shutting down -/

section Shutdown

variable {registry : ServiceRegistry} {w w₁ : World} {m : Managed} {started : Int}

/-- A call of `start_all` that did not fail had an order, and it renames nobody. -/
theorem startAll_ordered (hreg : registry.Inv w.services) (hstart : serviceRegistryStartAll registry w = some (started, w₁))
    (hstarted : 0 ≤ started) :
    (DependenciesRegistered w.services registry ∧ DependenciesAcyclic w.services registry) ∧ World.SameShape w w₁ := by
  unfold serviceRegistryStartAll at hstart
  by_cases hnil : registry.services = []
  · rw [if_pos (serviceRegistryCount_eq_zero.2 hnil)] at hstart
    cases hstart
    exact ⟨dependencies_of_empty hnil, fun _ => ⟨rfl, rfl⟩⟩
  · rw [if_neg fun hc => hnil (serviceRegistryCount_eq_zero.1 hc)] at hstart
    obtain ⟨allocs, ⟨hok, order, horder, hx⟩ | ⟨hno, hx⟩⟩ := World.startOrder_spec hreg hnil <;> rw [hx] at hstart
    · have hw₁ : w₁ = (startAllLoop registry order 0 (w.withAllocs allocs)).2 := by
        rw [Option.some.inj hstart]
      refine ⟨hok.dependencies, ?_⟩
      rw [hw₁, startAllLoop_world]
      exact World.startEach_shape _ (w.withAllocs allocs)
    · cases hstart
      omega

theorem stopAll_result_iff (hreg : m.registry.Inv m.world.services)
    (hmem : ∀ i < 3, m.world.embla.host.allocs.get i = true) {timeoutSeconds : ℚ} {fuel : Nat} {result : Int} {w' : World}
    (hret : serviceRegistryStopAll m.registry timeoutSeconds fuel m.world = some (result, w')) :
    (result = -1 ↔ ¬ (DependenciesRegistered m.world.services m.registry ∧
      DependenciesAcyclic m.world.services m.registry)) ∧
    (result ≠ -1 → ∀ s ∈ m.registry.services, (m.world.service s).state = .running →
      ∃ e ∈ stopAllTrace m.registry timeoutSeconds fuel m.world, e.service = s ∧ e.action.isSigterm = true) := by
  by_cases hok : m.world.Orderable m.registry
  · have hdone := stopAll_done hreg timeoutSeconds hok hret
    have hne : result ≠ -1 := by
      rw [hdone.counts]
      omega
    exact ⟨⟨fun hc => absurd hc hne, fun hno => absurd hok.dependencies hno⟩, fun _ => hdone.attempts⟩
  · obtain ⟨allocs, hx⟩ := stopAll_unorderable hreg timeoutSeconds hok
    rw [hx] at hret
    cases hret
    exact ⟨⟨fun _ hdeps => hok (.inr ⟨hmem, hdeps⟩), fun _ => rfl⟩, fun hc => absurd rfl hc⟩

/-- After a start that did not fail and any edits, `stop_all` refuses exactly when some dependency is
missing or there is a cycle by then, which ticks alone do not bring about; otherwise it calls
`service_stop` on every registered service that is running. -/
theorem stopAll_after_edits (hreg : registry.Reachable w.services)
    (hstart : serviceRegistryStartAll registry w = some (started, w₁)) (hstarted : 0 ≤ started)
    (hrun : Runs EditOp.exec EditOp.Valid ⟨w₁, registry, []⟩ m)
    (hmem : ∀ i < 3, m.world.embla.host.allocs.get i = true) (timeoutSeconds : ℚ) :
    (∀ fuel result w', serviceRegistryStopAll m.registry timeoutSeconds fuel m.world = some (result, w') →
      (result = -1 ↔ ¬ (DependenciesRegistered m.world.services m.registry ∧
        DependenciesAcyclic m.world.services m.registry)) ∧
      (result ≠ -1 → ∀ s ∈ m.registry.services, (m.world.service s).state = .running →
        ∃ e ∈ stopAllTrace m.registry timeoutSeconds fuel m.world, e.service = s ∧ e.action.isSigterm = true)) ∧
    (m.world.embla.host.ClockAdvances → ∃ fuel, ∀ fuel', fuel ≤ fuel' →
      ∃ result, serviceRegistryStopAll m.registry timeoutSeconds fuel' m.world = some result) ∧
    (Runs EditOp.exec EditOp.ValidTick ⟨w₁, registry, []⟩ m →
      DependenciesRegistered m.world.services m.registry ∧ DependenciesAcyclic m.world.services m.registry) := by
  -- starting edits no dependency, so only the edits of the run can spoil the order
  obtain ⟨hdeps, hshape⟩ := startAll_ordered hreg.inv hstart hstarted
  have hreg₁ : registry.Reachable w₁.services := .write hreg fun s _ => (hshape s).1
  have hinv : m.registry.Inv m.world.services := ServiceRegistry.Reachable.inv
    (hrun.holds (I := fun m => m.registry.Reachable m.world.services) (fun _ _ _ h _ hx => EditOp.exec_reachable h hx) hreg₁)
  refine ⟨fun fuel result w' hret => stopAll_result_iff hinv hmem hret, fun hclock => ?_, fun hticks => ?_⟩
  · by_cases hok : m.world.Orderable m.registry
    · exact stopAll_returns hinv timeoutSeconds hok hclock
    · obtain ⟨allocs, hx⟩ := stopAll_unorderable hinv timeoutSeconds hok
      exact ⟨0, fun fuel' _ => ⟨_, hx fuel'⟩⟩
  · suffices hend : m.registry = registry ∧ World.SameShape w m.world by
      rw [hend.1]
      exact hend.2.ordered hdeps
    refine hticks.holds (I := fun m => m.registry = registry ∧ World.SameShape w m.world) (fun m m' op h hop hx => ?_)
      ⟨rfl, hshape⟩
    obtain ⟨-, s, rfl⟩ := hop
    cases hx
    exact ⟨h.1, h.2.trans (World.serviceTick_shape s m.world)⟩

end Shutdown

/-- The web service and its database, which will exit in this order. -/
def webAndDbExiting : World := webAndDbWith [.event (exitOf 1 0), .event (exitOf 0 0)]

/-- Both after `start_all`. -/
def webAndDbStarted : World := ((serviceRegistryStartAll webAndDbRegistry webAndDbExiting).getD (0, webAndDbExiting)).2

theorem webAndDbStarted_eq : serviceRegistryStartAll webAndDbRegistry webAndDbExiting = some (2, webAndDbStarted) := by
  have hx : (serviceRegistryStartAll webAndDbRegistry webAndDbExiting).map Prod.fst = some 2 := by decide +kernel
  obtain ⟨⟨started, w₁⟩, hw₁, rfl⟩ := Option.map_eq_some_iff.1 hx
  unfold webAndDbStarted
  rw [hw₁]
  rfl

/-- The database is unregistered while the web service needs it. -/
def databaseUnregistered : Managed :=
  ⟨webAndDbStarted, (serviceRegistryUnregister webAndDbStarted.services webAndDbRegistry "db").2, [1]⟩

/-- The database is made to depend on the web service. -/
def dependencyCycle : Managed :=
  ⟨(webAndDbStarted.modifyService 1 fun r => (serviceAddDependency r "web" webAndDbStarted.embla.host).2.1).withEmbla
    { webAndDbStarted.embla with host := webAndDbStarted.embla.host.malloc.2 }, webAndDbRegistry, []⟩

/-- Both services were started; one edit later the registry cannot be shut down, although the web
service is registered and running and there is memory. -/
theorem stopAll_refused_after_edit :
    webAndDbRegistry.Reachable webAndDbExiting.services ∧
    serviceRegistryStartAll webAndDbRegistry webAndDbExiting = some (2, webAndDbStarted) ∧
    ∀ m ∈ [databaseUnregistered, dependencyCycle], Runs EditOp.exec EditOp.Valid ⟨webAndDbStarted, webAndDbRegistry, []⟩ m ∧
      (∀ i, m.world.embla.host.allocs.get i = true) ∧
      0 ∈ m.registry.services ∧ (m.world.service 0).state = .running ∧
      (serviceRegistryStopAll m.registry 5 10 m.world).map Prod.fst = some (-1) := by
  refine ⟨webAndDbRegistry_reachable, webAndDbStarted_eq, ?_⟩
  rw [List.forall_mem_cons, List.forall_mem_singleton]
  refine ⟨⟨?_, fun _ => rfl, by decide +kernel, by decide +kernel, by decide +kernel⟩,
    ?_, fun _ => rfl, by decide +kernel, by decide +kernel, by decide +kernel⟩
  · exact (Runs.refl _).next (.unregister "db") trivial rfl
  · exact (Runs.refl _).next (.addDependency 1 "web") (List.not_mem_nil) rfl

/-- After a tick both can still be stopped. -/
theorem stopAll_after_tick :
    ∃ w', serviceRegistryStopAll webAndDbRegistry 5 10 (serviceTick 0 webAndDbStarted).2 = some (2, w') ∧
      ∀ s ∈ webAndDbRegistry.services, ((serviceTick 0 webAndDbStarted).2.service s).state = .running →
        ∃ e ∈ stopAllTrace webAndDbRegistry 5 10 (serviceTick 0 webAndDbStarted).2,
          e.service = s ∧ e.action.isSigterm = true := by
  have hend : (serviceRegistryStopAll webAndDbRegistry 5 10 (serviceTick 0 webAndDbStarted).2).map Prod.fst = some 2 := by
    decide +kernel
  obtain ⟨⟨result, w'⟩, hret, rfl⟩ := Option.map_eq_some_iff.1 hend
  have hrun : Runs EditOp.exec EditOp.Valid ⟨webAndDbStarted, webAndDbRegistry, []⟩
      ⟨(serviceTick 0 webAndDbStarted).2, webAndDbRegistry, []⟩ :=
    (Runs.refl _).next (.tick 0) List.not_mem_nil rfl
  obtain ⟨hresult, -, -⟩ := stopAll_after_edits (w := webAndDbExiting) webAndDbRegistry_reachable webAndDbStarted_eq
    (by decide) hrun (fun _ _ => rfl) 5
  exact ⟨w', hret, (hresult 10 _ w' hret).2 (by decide)⟩

end EmblaOs
