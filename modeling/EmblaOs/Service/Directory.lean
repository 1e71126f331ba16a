/-
The registry as a finite map from names to services. Over every sequence of registrations and
unregistrations on a new registry, a lookup finds the service that was registered last under that name
unless it was unregistered since, a refused call changes nothing, and the slots enumerate the
registered services, each once.
-/
import EmblaOs.Service.Registry
import EmblaOs.Lib.FiniteMap
import EmblaOs.Lib.Runs

namespace EmblaOs

open Lib

/-! ## The map -/

section Map

variable {heap heap' : Heap Service} {registry : ServiceRegistry}

theorem serviceRegistryGet_of_names (hname : ∀ s ∈ registry.services, (heap'.read s).name = (heap.read s).name) :
    serviceRegistryGet heap' registry = serviceRegistryGet heap registry := by
  rw [serviceRegistryGet_eq, serviceRegistryGet_eq]
  exact lookup_congr hname

theorem serviceRegistryRegister_full {service : ServicePtr} (h : registry.services.length ≥ serviceRegistryInitialCapacity) :
    serviceRegistryRegister heap registry service = (-1, registry) :=
  if_pos h

theorem serviceRegistryRegister_known {s service : ServicePtr} (hs : s ∈ registry.services)
    (hname : (heap.read s).name = (heap.read service).name) :
    serviceRegistryRegister heap registry service = (-1, registry) := by
  unfold serviceRegistryRegister
  split
  · rfl
  · cases hf : serviceRegistryFindIndex heap registry (heap.read service).name with
    | none => exact absurd hname (ServiceRegistry.findIndex_none.1 hf s hs)
    | some index => simp

theorem serviceRegistryRegister_new {service : ServicePtr} (hlt : registry.services.length < serviceRegistryInitialCapacity)
    (hnew : ∀ s ∈ registry.services, (heap.read s).name ≠ (heap.read service).name) :
    serviceRegistryRegister heap registry service = (0, ⟨registry.services ++ [service]⟩) ∧
      serviceRegistryGet heap ⟨registry.services ++ [service]⟩ =
        Function.update (serviceRegistryGet heap registry) (heap.read service).name (some service) := by
  constructor
  · unfold serviceRegistryRegister
    rw [if_neg (by omega), ServiceRegistry.findIndex_none.2 hnew]
    simp
  · rw [serviceRegistryGet_eq, serviceRegistryGet_eq]
    exact lookup_snoc hnew

theorem serviceRegistryUnregister_unknown {name : String} (hno : ∀ s ∈ registry.services, (heap.read s).name ≠ name) :
    serviceRegistryUnregister heap registry name = (-1, registry) := by
  unfold serviceRegistryUnregister
  rw [ServiceRegistry.findIndex_none.2 hno]

/-- The entry of `name` has left the registry, and nothing else has changed. -/
structure Unregistered (heap : Heap Service) (registry : ServiceRegistry) (name : String) (registry' : ServiceRegistry) :
    Prop where
  get : serviceRegistryGet heap registry' = Function.update (serviceRegistryGet heap registry) name none
  services : ∀ s, s ∈ registry'.services ↔ s ∈ registry.services ∧ (heap.read s).name ≠ name
  count : serviceRegistryCount registry' + 1 = serviceRegistryCount registry

theorem ServiceRegistry.Inv.unregister_known (h : registry.Inv heap) {s : ServicePtr} (hs : s ∈ registry.services) :
    ∃ registry', serviceRegistryUnregister heap registry (heap.read s).name = (0, registry') ∧
      Unregistered heap registry (heap.read s).name registry' := by
  cases hf : serviceRegistryFindIndex heap registry (heap.read s).name with
  | none => exact absurd rfl (ServiceRegistry.findIndex_none.1 hf s hs)
  | some index =>
    obtain ⟨hi, hname⟩ := ServiceRegistry.findIndex_some hf
    have hslot : registry.services[index] = s := h.name_inj (List.getElem_mem hi) hs hname
    unfold serviceRegistryUnregister
    rw [hf]
    refine ⟨_, rfl, ?_, fun t => ?_, length_swapRemove _ hi⟩
    · rw [serviceRegistryGet_eq, serviceRegistryGet_eq]
      rw [lookup_swapRemove h.names hi, hslot]
    · rw [mem_swapRemove hi h.nodup, hslot]
      refine and_congr_right fun ht => not_congr ?_
      exact ⟨fun heq => by rw [heq], fun heq => h.name_inj ht hs heq⟩

/-- A registration is refused, or it is of a new name and there is room. -/
theorem ServiceRegistry.Inv.register_cases (h : registry.Inv heap) (service : ServicePtr) :
    (serviceRegistryRegister heap registry service = (-1, registry) ∧
        (serviceRegistryCount registry = serviceRegistryInitialCapacity ∨
          ∃ s ∈ registry.services, (heap.read s).name = (heap.read service).name)) ∨
      ∃ registry', serviceRegistryRegister heap registry service = (0, registry') ∧
        serviceRegistryCount registry ≠ serviceRegistryInitialCapacity ∧
        (∀ s ∈ registry.services, (heap.read s).name ≠ (heap.read service).name) ∧
        serviceRegistryGet heap registry' =
          Function.update (serviceRegistryGet heap registry) (heap.read service).name (some service) := by
  by_cases hfull : serviceRegistryCount registry = serviceRegistryInitialCapacity
  · exact .inl ⟨serviceRegistryRegister_full (Nat.le_of_eq hfull.symm), .inl hfull⟩
  by_cases hknown : ∃ s ∈ registry.services, (heap.read s).name = (heap.read service).name
  · obtain ⟨s, hs, hname⟩ := hknown
    exact .inl ⟨serviceRegistryRegister_known hs hname, .inr ⟨s, hs, hname⟩⟩
  · have hnew : ∀ s ∈ registry.services, (heap.read s).name ≠ (heap.read service).name :=
      fun s hs hname => hknown ⟨s, hs, hname⟩
    obtain ⟨hreg, hget⟩ := serviceRegistryRegister_new (Nat.lt_of_le_of_ne h.size hfull) hnew
    exact .inr ⟨_, hreg, hfull, hnew, hget⟩

/-- The same for an unregistration. -/
theorem ServiceRegistry.Inv.unregister_cases (h : registry.Inv heap) (name : String) :
    (serviceRegistryUnregister heap registry name = (-1, registry) ∧ ∀ s ∈ registry.services, (heap.read s).name ≠ name) ∨
      ∃ registry', serviceRegistryUnregister heap registry name = (0, registry') ∧
        (∃ s ∈ registry.services, (heap.read s).name = name) ∧ Unregistered heap registry name registry' := by
  by_cases hknown : ∃ s ∈ registry.services, (heap.read s).name = name
  · obtain ⟨s, hs, rfl⟩ := hknown
    obtain ⟨registry', hun, hgone⟩ := h.unregister_known hs
    exact .inr ⟨registry', hun, ⟨s, hs, rfl⟩, hgone⟩
  · have hno : ∀ s ∈ registry.services, (heap.read s).name ≠ name := fun s hs hname => hknown ⟨s, hs, hname⟩
    exact .inl ⟨serviceRegistryUnregister_unknown hno, hno⟩

end Map

/-! ## Every sequence of calls -/

/-- A registry and the services of the program. -/
structure Directory where
  heap : Heap Service
  registry : ServiceRegistry
  /-- the services registered and unregistered, latest first -/
  log : List (MapEvent String ServicePtr)

inductive RegistryOp
  | register (service : ServicePtr)
  | unregister (name : String)
  /-- what everybody else does to the services in between -/
  | others (heap : Heap Service)

def RegistryOp.exec : RegistryOp → Directory → Option Directory
  | .register service, x =>
    match serviceRegistryRegister x.heap x.registry service with
    | (0, registry) => some { x with registry := registry, log := .put (x.heap.read service).name service :: x.log }
    | (_, registry) => some { x with registry := registry }
  | .unregister name, x =>
    match serviceRegistryUnregister x.heap x.registry name with
    | (0, registry) => some { x with registry := registry, log := .removed name :: x.log }
    | (_, registry) => some { x with registry := registry }
  | .others heap, x => some { x with heap := heap }

/-- A service has no setter for its name. -/
def RegistryOp.Allowed (x : Directory) : RegistryOp → Prop
  | .others heap => ∀ s ∈ x.registry.services, (heap.read s).name = (x.heap.read s).name
  | _ => True

/-- Any sequence of calls on a new registry. -/
abbrev RegistryRuns (heap : Heap Service) (x : Directory) : Prop :=
  Runs RegistryOp.exec RegistryOp.Allowed ⟨heap, serviceRegistryCreate, []⟩ x

structure Directory.Inv (x : Directory) : Prop where
  registry : x.registry.Inv x.heap
  log : LogOf x.log (serviceRegistryGet x.heap x.registry)

theorem RegistryOp.inv {x y : Directory} {op : RegistryOp} (h : x.Inv) (hok : op.Allowed x) (hx : op.exec x = some y) :
    y.Inv := by
  cases op with
  | register service =>
    simp only [RegistryOp.exec] at hx
    have hinv := h.registry.register service
    rcases h.registry.register_cases service with ⟨hreg, -⟩ | ⟨registry', hreg, -, -, hget⟩ <;> rw [hreg] at hx hinv
    · cases hx
      exact h
    · cases hx
      refine ⟨hinv, ?_⟩
      rw [hget]
      exact h.log.put _ _
  | unregister name =>
    simp only [RegistryOp.exec] at hx
    have hinv := h.registry.unregister name
    rcases h.registry.unregister_cases name with ⟨hun, -⟩ | ⟨registry', hun, -, hgone⟩ <;> rw [hun] at hx hinv
    · cases hx
      exact h
    · cases hx
      refine ⟨hinv, ?_⟩
      rw [hgone.get]
      exact h.log.removed _
  | others heap =>
    cases hx
    refine ⟨h.registry.write hok, ?_⟩
    rw [serviceRegistryGet_of_names hok]
    exact h.log

/-- The registry is the map `serviceRegistryGet`, each call changes it at one name at most, and the
slots in use are its services. -/
structure Directory.Refines (x : Directory) : Prop where
  names : (x.registry.services.map fun s => (x.heap.read s).name).Nodup
  get : ∀ name s, serviceRegistryGet x.heap x.registry name = some s ↔ Stands x.log name s
  registered : ∀ s, s ∈ x.registry.services ↔ serviceRegistryGet x.heap x.registry (x.heap.read s).name = some s
  register_fails : ∀ service, (serviceRegistryRegister x.heap x.registry service).1 = -1 ↔
    serviceRegistryCount x.registry = serviceRegistryInitialCapacity ∨
      ∃ s ∈ x.registry.services, (x.heap.read s).name = (x.heap.read service).name
  register_refused : ∀ service, (serviceRegistryRegister x.heap x.registry service).1 = -1 →
    (serviceRegistryRegister x.heap x.registry service).2 = x.registry
  register_ok : ∀ service, (serviceRegistryRegister x.heap x.registry service).1 ≠ -1 →
    serviceRegistryGet x.heap (serviceRegistryRegister x.heap x.registry service).2 =
      Function.update (serviceRegistryGet x.heap x.registry) (x.heap.read service).name (some service)
  unregister_fails : ∀ name, (serviceRegistryUnregister x.heap x.registry name).1 = -1 ↔
    ∀ s ∈ x.registry.services, (x.heap.read s).name ≠ name
  unregister_refused : ∀ name, (serviceRegistryUnregister x.heap x.registry name).1 = -1 →
    (serviceRegistryUnregister x.heap x.registry name).2 = x.registry
  unregister_ok : ∀ name, (serviceRegistryUnregister x.heap x.registry name).1 ≠ -1 →
    Unregistered x.heap x.registry name (serviceRegistryUnregister x.heap x.registry name).2
  enumerated : ∀ s ∈ x.registry.services,
    ∃! i, i < serviceRegistryCount x.registry ∧ serviceRegistryGetAt x.registry i = some s
  only : ∀ i < serviceRegistryCount x.registry, ∃ s ∈ x.registry.services, serviceRegistryGetAt x.registry i = some s

theorem serviceRegistryGetAt_iff {registry : ServiceRegistry} {i : Nat} {s : ServicePtr} :
    serviceRegistryGetAt registry i = some s ↔ ∃ hi : i < registry.services.length, registry.services[i] = s := by
  unfold serviceRegistryGetAt
  split
  · rename_i hge
    exact iff_of_false (by simp) fun ⟨hi, _⟩ => by omega
  · exact List.getElem?_eq_some_iff

theorem Directory.Inv.refines {x : Directory} (h : x.Inv) : x.Refines where
  names := h.registry.names
  get := h.log
  registered s := by
    rw [h.registry.get_iff]
    exact ⟨fun hs => ⟨hs, rfl⟩, fun hs => hs.1⟩
  register_fails service := by
    rcases h.registry.register_cases service with ⟨hx, hwhy⟩ | ⟨registry', hx, hroom, hnew, -⟩ <;> rw [hx]
    · exact iff_of_true rfl hwhy
    · refine iff_of_false (by simp) ?_
      rintro (hfull | ⟨s, hs, hname⟩)
      · exact hroom hfull
      · exact hnew s hs hname
  register_refused service hfail := by
    rcases h.registry.register_cases service with ⟨hx, -⟩ | ⟨registry', hx, -⟩ <;> rw [hx] at hfail ⊢
    cases hfail
  register_ok service hok := by
    rcases h.registry.register_cases service with ⟨hx, -⟩ | ⟨registry', hx, -, -, hget⟩ <;> rw [hx] at hok ⊢
    · exact absurd rfl hok
    · exact hget
  unregister_fails name := by
    rcases h.registry.unregister_cases name with ⟨hx, hno⟩ | ⟨registry', hx, ⟨s, hs, hname⟩, -⟩ <;> rw [hx]
    · exact iff_of_true rfl hno
    · exact iff_of_false (by simp) fun hno => hno s hs hname
  unregister_refused name hfail := by
    rcases h.registry.unregister_cases name with ⟨hx, -⟩ | ⟨registry', hx, -⟩ <;> rw [hx] at hfail ⊢
    cases hfail
  unregister_ok name hok := by
    rcases h.registry.unregister_cases name with ⟨hx, -⟩ | ⟨registry', hx, -, hgone⟩ <;> rw [hx] at hok ⊢
    · exact absurd rfl hok
    · exact hgone
  enumerated s hs := by
    obtain ⟨i, hi, hget⟩ := List.getElem_of_mem hs
    refine ⟨i, ⟨hi, serviceRegistryGetAt_iff.2 ⟨hi, hget⟩⟩, ?_⟩
    rintro j ⟨-, hj⟩
    obtain ⟨hj, hget'⟩ := serviceRegistryGetAt_iff.1 hj
    exact (List.Nodup.getElem_inj_iff h.registry.nodup).1 (hget'.trans hget.symm)
  only i hi := ⟨_, List.getElem_mem hi, serviceRegistryGetAt_iff.2 ⟨hi, rfl⟩⟩

theorem serviceRegistry_refines_map {heap : Heap Service} {x : Directory} (h : RegistryRuns heap x) : x.Refines :=
  (h.holds (fun _ _ _ hI hok hx => RegistryOp.inv hI hok hx) ⟨⟨List.nodup_nil, Nat.zero_le _⟩, LogOf.nil⟩).refines

/-- Two services of different names. -/
def frontAndStore : Heap Service :=
  ((noServices.alloc (serviceCreate "front")).2.alloc (serviceCreate "store")).2

/-- Both are registered, the first once too often, and then it is unregistered. -/
theorem serviceRegistry_refines_frontGone :
    ∃ x, RegistryRuns frontAndStore x ∧ x.registry.services = [1] ∧ x.Refines := by
  have hnew : RegistryRuns frontAndStore ⟨frontAndStore, serviceRegistryCreate, []⟩ := .refl _
  have hboth := (hnew.next (.register 0) trivial rfl).next (.register 1) trivial rfl
  have hrun := (hboth.next (.register 0) trivial rfl).next (.unregister "front") trivial rfl
  exact ⟨_, hrun, rfl, serviceRegistry_refines_map hrun⟩

end EmblaOs
