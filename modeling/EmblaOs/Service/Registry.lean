/-
The registry of services by name (service_registry.c): a 16-slot table searched by name, appended
to by registration and emptied by moving the last entry into the freed slot. Registered names stay
pairwise distinct, so a search finds the one service of that name.
-/
import EmblaOs.Service.Basic
import EmblaOs.Lib.FiniteMap

namespace EmblaOs

open Lib

def serviceRegistryInitialCapacity : Nat := 16

/-- The used slots; the count is the length. -/
structure ServiceRegistry where
  services : List ServicePtr
  deriving DecidableEq, Repr

def serviceRegistryCreate : ServiceRegistry := ⟨[]⟩

def serviceRegistryFindIndex (heap : Heap Service) (registry : ServiceRegistry) (name : String) : Option Nat :=
  registry.services.findIdx? fun service => (heap.read service).name = name

def serviceRegistryRegister (heap : Heap Service) (registry : ServiceRegistry) (service : ServicePtr) :
    Int × ServiceRegistry :=
  if registry.services.length ≥ serviceRegistryInitialCapacity then (-1, registry)
  else if (serviceRegistryFindIndex heap registry (heap.read service).name).isSome then (-1, registry)
  else (0, ⟨registry.services ++ [service]⟩)

def serviceRegistryGet (heap : Heap Service) (registry : ServiceRegistry) (name : String) : Option ServicePtr :=
  match serviceRegistryFindIndex heap registry name with
  | none => none
  | some index => registry.services[index]?

def serviceRegistryCount (registry : ServiceRegistry) : Nat := registry.services.length

def serviceRegistryGetAt (registry : ServiceRegistry) (index : Nat) : Option ServicePtr :=
  if index ≥ registry.services.length then none else registry.services[index]?

/-- The unregistered service is destroyed. -/
def serviceRegistryUnregister (heap : Heap Service) (registry : ServiceRegistry) (name : String) :
    Int × ServiceRegistry :=
  match serviceRegistryFindIndex heap registry name with
  | none => (-1, registry)
  | some index => (0, ⟨swapRemove registry.services index⟩)

/-- Registries that registration and unregistration lead to, while the rest of the program does what
it likes to the services but never renames one that is registered (`Service` has no setter for its
name). -/
inductive ServiceRegistry.Reachable : Heap Service → ServiceRegistry → Prop
  | create (heap : Heap Service) : Reachable heap serviceRegistryCreate
  | register {heap : Heap Service} {registry : ServiceRegistry} (h : Reachable heap registry) (service : ServicePtr) :
      Reachable heap (serviceRegistryRegister heap registry service).2
  | unregister {heap : Heap Service} {registry : ServiceRegistry} (h : Reachable heap registry) (name : String) :
      Reachable heap (serviceRegistryUnregister heap registry name).2
  | write {heap heap' : Heap Service} {registry : ServiceRegistry} (h : Reachable heap registry)
      (hname : ∀ s ∈ registry.services, (heap'.read s).name = (heap.read s).name) : Reachable heap' registry

/-! ## Distinct names -/

theorem serviceRegistryGet_eq (heap : Heap Service) (registry : ServiceRegistry) :
    serviceRegistryGet heap registry = lookup (fun s => (heap.read s).name) registry.services := by
  funext name
  rw [lookup_eq_findIdx]
  unfold serviceRegistryGet serviceRegistryFindIndex
  cases registry.services.findIdx? fun service => decide ((heap.read service).name = name) <;> rfl

structure ServiceRegistry.Inv (heap : Heap Service) (registry : ServiceRegistry) : Prop where
  names : (registry.services.map fun s => (heap.read s).name).Nodup
  size : registry.services.length ≤ serviceRegistryInitialCapacity

namespace ServiceRegistry

variable {heap : Heap Service} {registry : ServiceRegistry}

theorem Inv.nodup (h : registry.Inv heap) : registry.services.Nodup := List.Nodup.of_map _ h.names

theorem Inv.name_inj (h : registry.Inv heap) {s t : ServicePtr} (hs : s ∈ registry.services)
    (ht : t ∈ registry.services) (heq : (heap.read s).name = (heap.read t).name) : s = t :=
  List.inj_on_of_nodup_map h.names hs ht heq

theorem findIndex_none {name : String} :
    serviceRegistryFindIndex heap registry name = none ↔ ∀ s ∈ registry.services, (heap.read s).name ≠ name := by
  unfold serviceRegistryFindIndex
  rw [List.findIdx?_eq_none_iff]
  simp

theorem findIndex_some {name : String} {index : Nat} (h : serviceRegistryFindIndex heap registry name = some index) :
    ∃ hi : index < registry.services.length, (heap.read registry.services[index]).name = name := by
  obtain ⟨hi, hname, -⟩ := List.findIdx?_eq_some_iff_getElem.1 h
  exact ⟨hi, by simpa using hname⟩

/-- A name is looked up to the service registered under it. -/
theorem Inv.get_iff (h : registry.Inv heap) {name : String} {s : ServicePtr} :
    serviceRegistryGet heap registry name = some s ↔ s ∈ registry.services ∧ (heap.read s).name = name := by
  rw [serviceRegistryGet_eq]
  exact lookup_eq_some h.names

theorem get_none {name : String} :
    serviceRegistryGet heap registry name = none ↔ ∀ s ∈ registry.services, (heap.read s).name ≠ name := by
  rw [serviceRegistryGet_eq]
  exact lookup_eq_none

theorem Inv.register (h : registry.Inv heap) (service : ServicePtr) :
    (serviceRegistryRegister heap registry service).2.Inv heap := by
  unfold serviceRegistryRegister
  split
  · exact h
  rename_i hsize
  split
  · exact h
  rename_i hnew
  have hnone : ∀ s ∈ registry.services, (heap.read s).name ≠ (heap.read service).name := by
    apply findIndex_none.1
    simpa using hnew
  constructor
  · simp only [List.map_append, List.map_cons, List.map_nil]
    refine List.nodup_append.2 ⟨h.names, List.nodup_singleton _, ?_⟩
    intro a ha b hb
    obtain ⟨s, hs, rfl⟩ := List.mem_map.1 ha
    rw [List.mem_singleton.1 hb]
    exact hnone s hs
  · simp only [List.length_append, List.length_singleton]
    omega

theorem Inv.unregister (h : registry.Inv heap) (name : String) :
    (serviceRegistryUnregister heap registry name).2.Inv heap := by
  unfold serviceRegistryUnregister
  cases hf : serviceRegistryFindIndex heap registry name with
  | none => exact h
  | some index =>
    obtain ⟨hi, -⟩ := findIndex_some hf
    refine ⟨nodup_map_swapRemove hi _ h.names, ?_⟩
    have hlen := length_swapRemove registry.services hi
    have hsize := h.size
    simp only
    omega

theorem Inv.write {heap' : Heap Service} (h : registry.Inv heap)
    (hname : ∀ s ∈ registry.services, (heap'.read s).name = (heap.read s).name) : registry.Inv heap' :=
  ⟨by rw [List.map_congr_left hname]; exact h.names, h.size⟩

theorem Reachable.inv (h : Reachable heap registry) : registry.Inv heap := by
  induction h with
  | create heap => exact ⟨List.nodup_nil, Nat.zero_le _⟩
  | register _ service ih => exact ih.register service
  | unregister _ name ih => exact ih.unregister name
  | write _ hname ih => exact ih.write hname

end ServiceRegistry

end EmblaOs
