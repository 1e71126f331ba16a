/-
The memory of services and of their registry (service.c, service_registry.c) and who owns it: creating a
service hands the configuration over to it, registering hands the service over to the registry, and a
call that fails hands over nothing. A program may make these calls in any order.
-/
import EmblaOs.Memory.Config
import EmblaOs.Service.Registry
import EmblaOs.Lib.Runs

namespace EmblaOs.Memory

open Lib

/-! ## A service -/

/-- `struct Service` at its address, with what it points to; the other fields are in `EmblaOs.Service`. -/
structure Service where
  block : Block
  name : Str
  config : Config
  dependencies : List Str
  deriving DecidableEq

def Service.blocks (service : Service) : Multiset Block :=
  {service.block} + {service.name.block} + service.config.blocks +
    ((service.dependencies.map Str.block : List Block) : Multiset Block)

/-- On failure the configuration stays with the caller. -/
def serviceCreate (name : String) (config : Config) (mem : Mem) : Option Service × Mem :=
  match mem.acquire with
  | (none, mem) => (none, mem)
  | (some block, mem) =>
    match emblaStrdup name mem with
    | (none, mem) => (none, mem.release block)
    | (some name, mem) => (some ⟨block, name, config, []⟩, mem)

def serviceDestroy (service : Service) (mem : Mem) : Mem :=
  let mem := mem.releaseAll (service.dependencies.map Str.block)
  let mem := mem.release service.name.block
  let mem := processConfigDestroy service.config mem
  mem.release service.block

def serviceAddDependency (service : Service) (dependencyName : String) (mem : Mem) : Int × Service × Mem :=
  if dependencyName = service.name.text then (-1, service, mem)
  else if service.dependencies.length ≥ serviceMaxDependencies then (-1, service, mem)
  else
    match emblaStrdup dependencyName mem with
    | (none, mem) => (-1, service, mem)
    | (some copy, mem) => (0, { service with dependencies := service.dependencies ++ [copy] }, mem)

section Calls

variable {mem : Mem} {r : Multiset Block} {n : Nat}

theorem serviceCreate_gets (name : String) (config : Config) (h : mem.Holds (config.blocks + r) n) :
    (∃ mem', serviceCreate name config mem = (none, mem') ∧ mem'.Holds (config.blocks + r) (n + 1)) ∨
      ∃ service mem', serviceCreate name config mem = (some service, mem') ∧ service.name.text = name ∧
        service.config = config ∧ mem'.Holds (service.blocks + r) n := by
  unfold serviceCreate
  rcases h.acquire with ⟨mem₁, hx, h₁⟩ | ⟨block, mem₁, hx, h₁⟩ <;> simp only [hx]
  · exact .inl ⟨mem₁, rfl, h₁⟩
  rcases emblaStrdup_gets name h₁ with ⟨mem₂, hy, h₂⟩ | ⟨b, mem₂, hy, h₂⟩ <;> simp only [hy]
  · exact .inl ⟨_, rfl, h₂.release⟩
  · refine .inr ⟨_, _, rfl, rfl, rfl, h₂.congr ?_⟩
    simp only [Service.blocks, List.map_nil, Multiset.coe_nil]
    abel

theorem serviceDestroy_holds {service : Service} (h : mem.Holds (service.blocks + r) n) :
    (serviceDestroy service mem).Holds r n := by
  refine Ledger.Holds.release (processConfigDestroy_holds (Ledger.Holds.release (Ledger.Holds.releaseAll (h.congr ?_))))
  simp only [Service.blocks]
  abel

theorem serviceAddDependency_holds (service : Service) (dependencyName : String) (h : mem.Holds (service.blocks + r) n) :
    ∃ result service' mem' n', serviceAddDependency service dependencyName mem = (result, service', mem') ∧
      (result ≠ 0 → service' = service) ∧ service'.name = service.name ∧ mem'.Holds (service'.blocks + r) n' := by
  unfold serviceAddDependency
  split
  · exact ⟨_, _, _, n, rfl, fun _ => rfl, rfl, h⟩
  split
  · exact ⟨_, _, _, n, rfl, fun _ => rfl, rfl, h⟩
  rcases emblaStrdup_gets dependencyName h with ⟨mem', hx, h'⟩ | ⟨b, mem', hx, h'⟩ <;> simp only [hx]
  · exact ⟨_, _, _, n + 1, rfl, fun _ => rfl, rfl, h'⟩
  · refine ⟨_, _, _, n, rfl, fun hne => absurd rfl hne, rfl, h'.congr ?_⟩
    simp only [Service.blocks, List.map_append, List.map_cons, List.map_nil, ← Multiset.coe_add,
      Multiset.coe_singleton]
    abel

end Calls

/-! ## The registry -/

/-- `struct ServiceRegistry` at its address, its table and the services in it. -/
structure ServiceRegistry where
  block : Block
  table : Block
  services : List Service
  deriving DecidableEq

def ServiceRegistry.blocks (registry : ServiceRegistry) : Multiset Block :=
  {registry.block} + {registry.table} + total Service.blocks registry.services

def serviceRegistryCreate (mem : Mem) : Option ServiceRegistry × Mem :=
  match mem.acquireTwo with
  | (none, mem) => (none, mem)
  | (some (block, table), mem) => (some ⟨block, table, []⟩, mem)

/-- The loop of `service_registry_destroy`. -/
def destroyServices : List Service → Mem → Mem
  | [], mem => mem
  | service :: rest, mem => destroyServices rest (serviceDestroy service mem)

def serviceRegistryDestroy (registry : ServiceRegistry) (mem : Mem) : Mem :=
  (destroyServices registry.services mem).releaseTwo registry.block registry.table

def serviceRegistryFindIndex (registry : ServiceRegistry) (name : String) : Option Nat :=
  registry.services.findIdx? fun service => service.name.text = name

/-- On failure the service stays with the caller. -/
def serviceRegistryRegister (registry : ServiceRegistry) (service : Service) : Int × ServiceRegistry :=
  if registry.services.length ≥ serviceRegistryInitialCapacity then (-1, registry)
  else if (serviceRegistryFindIndex registry service.name.text).isSome then (-1, registry)
  else (0, { registry with services := registry.services ++ [service] })

def serviceRegistryUnregister (registry : ServiceRegistry) (name : String) (mem : Mem) : Int × ServiceRegistry × Mem :=
  match serviceRegistryFindIndex registry name with
  | none => (-1, registry, mem)
  | some index =>
    match registry.services[index]? with
    | none => (-1, registry, mem)
    | some service => (0, { registry with services := swapRemove registry.services index }, serviceDestroy service mem)

section Registry

variable {mem : Mem} {r : Multiset Block} {n : Nat}

theorem serviceRegistryCreate_gets (h : mem.Holds r n) :
    (∃ mem', serviceRegistryCreate mem = (none, mem') ∧ mem'.Holds r (n + 1)) ∨
      ∃ registry mem', serviceRegistryCreate mem = (some registry, mem') ∧ registry.services = [] ∧
        mem'.Holds (registry.blocks + r) n := by
  unfold serviceRegistryCreate
  rcases h.acquireTwo with ⟨mem', hx, h'⟩ | ⟨⟨block, table⟩, mem', hx, h'⟩ <;> simp only [hx]
  · exact .inl ⟨mem', rfl, h'⟩
  · refine .inr ⟨_, mem', rfl, rfl, h'.congr ?_⟩
    simp only [ServiceRegistry.blocks, total_nil, add_zero]

theorem destroyServices_holds : ∀ {services : List Service} {mem : Mem},
    mem.Holds (total Service.blocks services + r) n → (destroyServices services mem).Holds r n
  | [], _, h => h.congr (zero_add r)
  | service :: rest, mem, h => by
    show (destroyServices rest (serviceDestroy service mem)).Holds r n
    refine destroyServices_holds (serviceDestroy_holds (h.congr ?_))
    rw [total_cons, add_assoc]

theorem serviceRegistryDestroy_holds {registry : ServiceRegistry} (h : mem.Holds (registry.blocks + r) n) :
    (serviceRegistryDestroy registry mem).Holds r n := by
  refine Ledger.Holds.releaseTwo (destroyServices_holds (h.congr ?_))
  simp only [ServiceRegistry.blocks]
  abel

/-- Whoever owns the service afterwards, its blocks are counted once. -/
theorem serviceRegistryRegister_blocks (registry : ServiceRegistry) (service : Service) :
    ((serviceRegistryRegister registry service).1 = 0 ∧
        (serviceRegistryRegister registry service).2.blocks = service.blocks + registry.blocks) ∨
      serviceRegistryRegister registry service = (-1, registry) := by
  unfold serviceRegistryRegister
  split
  · exact .inr rfl
  split
  · exact .inr rfl
  · refine .inl ⟨rfl, ?_⟩
    simp only [ServiceRegistry.blocks, total_snoc]
    abel

theorem serviceRegistryUnregister_holds (registry : ServiceRegistry) (name : String)
    (h : mem.Holds (registry.blocks + r) n) :
    ∃ result registry' mem', serviceRegistryUnregister registry name mem = (result, registry', mem') ∧
      mem'.Holds (registry'.blocks + r) n := by
  unfold serviceRegistryUnregister
  cases serviceRegistryFindIndex registry name with
  | none => exact ⟨_, _, _, rfl, h⟩
  | some index =>
    cases hget : registry.services[index]? with
    | none =>
      simp only [hget]
      exact ⟨_, _, _, rfl, h⟩
    | some service =>
      simp only [hget]
      refine ⟨_, _, _, rfl, serviceDestroy_holds (h.congr ?_)⟩
      simp only [ServiceRegistry.blocks, total_swapRemove hget]
      abel

end Registry

/-! ## The same names in the same slots -/

/-- The registry of addresses and the registry of owned services hold the same names in the same order. -/
def Agrees (heap : Heap EmblaOs.Service) (registry : EmblaOs.ServiceRegistry) (owned : ServiceRegistry) : Prop :=
  registry.services.map (fun s => (heap.read s).name) = owned.services.map fun s => s.name.text

section Agree

variable {heap : Heap EmblaOs.Service} {registry : EmblaOs.ServiceRegistry} {owned : ServiceRegistry}

theorem Agrees.length (h : Agrees heap registry owned) : registry.services.length = owned.services.length := by
  simpa using congrArg List.length h

theorem Agrees.findIndex (h : Agrees heap registry owned) (name : String) :
    EmblaOs.serviceRegistryFindIndex heap registry name = serviceRegistryFindIndex owned name := by
  have hmap := congrArg (List.findIdx? fun text => decide (text = name)) h
  rw [List.findIdx?_map, List.findIdx?_map] at hmap
  exact hmap

/-- Registering answers the same and keeps the names the same. -/
theorem Agrees.register (h : Agrees heap registry owned) {s : ServicePtr} {service : Service}
    (hname : (heap.read s).name = service.name.text) :
    (EmblaOs.serviceRegistryRegister heap registry s).1 = (serviceRegistryRegister owned service).1 ∧
      Agrees heap (EmblaOs.serviceRegistryRegister heap registry s).2 (serviceRegistryRegister owned service).2 := by
  unfold EmblaOs.serviceRegistryRegister serviceRegistryRegister
  rw [h.length, h.findIndex, hname]
  split
  · exact ⟨rfl, h⟩
  split
  · exact ⟨rfl, h⟩
  · refine ⟨rfl, ?_⟩
    unfold Agrees at h ⊢
    simp only [List.map_append, h, List.map_cons, List.map_nil, hname]

theorem Agrees.unregister (h : Agrees heap registry owned) (name : String) (mem : Mem) :
    (EmblaOs.serviceRegistryUnregister heap registry name).1 = (serviceRegistryUnregister owned name mem).1 ∧
      Agrees heap (EmblaOs.serviceRegistryUnregister heap registry name).2
        (serviceRegistryUnregister owned name mem).2.1 := by
  unfold EmblaOs.serviceRegistryUnregister serviceRegistryUnregister
  rw [h.findIndex]
  cases hf : serviceRegistryFindIndex owned name with
  | none => exact ⟨rfl, h⟩
  | some index =>
    obtain ⟨hi, -, -⟩ := List.findIdx?_eq_some_iff_getElem.1 hf
    simp only [List.getElem?_eq_getElem hi]
    unfold Agrees at h ⊢
    simp only [map_swapRemove, h, and_self]

end Agree

/-! ## Any program -/

/-- A program with what it owns itself, its registry and the memory it works in. -/
structure App where
  configs : List Config
  services : List Service
  registry : Option ServiceRegistry
  mem : Mem

def registryBlocks : Option ServiceRegistry → Multiset Block
  | none => 0
  | some registry => registry.blocks

/-- The blocks in use, each under its owner. -/
def App.blocks (a : App) : Multiset Block :=
  total Config.blocks a.configs + total Service.blocks a.services + registryBlocks a.registry

/-- What a program may do with what it owns; it names its own objects by their places. -/
inductive AppOp
  | createConfig (path : String) (argv : List String)
  | configure (i : Nat) (op : ConfigOp)
  | destroyConfig (i : Nat)
  | createService (name : String) (i : Nat)
  | addDependency (i : Nat) (dependencyName : String)
  | destroyService (i : Nat)
  | createRegistry
  | register (i : Nat)
  | unregister (name : String)
  | destroyRegistry

namespace AppOp

/-- `none` where the program owns no such object. -/
def exec : AppOp → App → Option App
  | createConfig path argv, a =>
    let (config, mem) := processConfigCreate path argv a.mem
    some { a with configs := a.configs ++ config.toList, mem := mem }
  | configure i op, a => do
    let config ← a.configs[i]?
    let (_, config, mem) := op.exec config a.mem
    return { a with configs := a.configs.set i config, mem := mem }
  | destroyConfig i, a => do
    let config ← a.configs[i]?
    return { a with configs := a.configs.eraseIdx i, mem := processConfigDestroy config a.mem }
  | createService name i, a => do
    let config ← a.configs[i]?
    match serviceCreate name config a.mem with
    | (none, mem) => return { a with mem := mem }
    | (some service, mem) =>
      return { a with configs := a.configs.eraseIdx i, services := a.services ++ [service], mem := mem }
  | addDependency i dependencyName, a => do
    let service ← a.services[i]?
    let (_, service, mem) := serviceAddDependency service dependencyName a.mem
    return { a with services := a.services.set i service, mem := mem }
  | destroyService i, a => do
    let service ← a.services[i]?
    return { a with services := a.services.eraseIdx i, mem := serviceDestroy service a.mem }
  | createRegistry, a =>
    match a.registry with
    | some _ => none
    | none =>
      let (registry, mem) := serviceRegistryCreate a.mem
      some { a with registry := registry, mem := mem }
  | register i, a => do
    let service ← a.services[i]?
    let registry ← a.registry
    let (result, registry) := serviceRegistryRegister registry service
    if result = 0 then return { a with services := a.services.eraseIdx i, registry := some registry } else return a
  | unregister name, a => do
    let registry ← a.registry
    let (_, registry, mem) := serviceRegistryUnregister registry name a.mem
    return { a with registry := some registry, mem := mem }
  | destroyRegistry, a => do
    let registry ← a.registry
    return { a with registry := none, mem := serviceRegistryDestroy registry a.mem }

end AppOp

/-- Memory holds what the program's objects own, and `r` besides. -/
def App.Accounted (r : Multiset Block) (a : App) : Prop := ∃ n, a.mem.Holds (a.blocks + r) n

/-- A program that owns more or less than before, with the same memory but for what changed hands. -/
theorem App.Accounted.of_holds {r s : Multiset Block} {n : Nat} {a : App} (h : a.mem.Holds s n)
    (heq : s = a.blocks + r) : a.Accounted r := ⟨n, h.congr heq⟩

section Step

variable {r : Multiset Block} {a a' : App} {i : Nat}

theorem AppOp.configure_accounted {op : ConfigOp} (hx : (AppOp.configure i op).exec a = some a')
    (h : a.Accounted r) : a'.Accounted r := by
  obtain ⟨n, h⟩ := h
  obtain ⟨config, hget, hx⟩ := Option.bind_eq_some_iff.1 hx
  have hframe : a.mem.Holds (config.blocks + (total Config.blocks (a.configs.eraseIdx i) +
      total Service.blocks a.services + registryBlocks a.registry + r)) n := by
    refine h.congr ?_
    simp only [App.blocks, total_eraseIdx hget]
    abel
  obtain ⟨n', h'⟩ := op.exec_holds hframe
  generalize op.exec config a.mem = out at hx h'
  obtain rfl := Option.some.inj hx
  refine .of_holds h' ?_
  simp only [App.blocks, total_set hget]
  abel

theorem AppOp.createService_accounted {name : String} (hx : (AppOp.createService name i).exec a = some a')
    (h : a.Accounted r) : a'.Accounted r := by
  obtain ⟨n, h⟩ := h
  obtain ⟨config, hget, hx⟩ := Option.bind_eq_some_iff.1 hx
  have hframe : a.mem.Holds (config.blocks + (total Config.blocks (a.configs.eraseIdx i) +
      total Service.blocks a.services + registryBlocks a.registry + r)) n := by
    refine h.congr ?_
    simp only [App.blocks, total_eraseIdx hget]
    abel
  rcases serviceCreate_gets name config hframe with ⟨mem, hy, h'⟩ | ⟨service, mem, hy, -, -, h'⟩ <;> rw [hy] at hx <;>
    obtain rfl := Option.some.inj hx
  · -- the configuration is still the program's
    refine .of_holds h' ?_
    simp only [App.blocks, total_eraseIdx hget]
    abel
  · refine .of_holds h' ?_
    simp only [App.blocks, total_snoc]
    abel

theorem AppOp.addDependency_accounted {dependencyName : String}
    (hx : (AppOp.addDependency i dependencyName).exec a = some a') (h : a.Accounted r) : a'.Accounted r := by
  obtain ⟨n, h⟩ := h
  obtain ⟨service, hget, hx⟩ := Option.bind_eq_some_iff.1 hx
  have hframe : a.mem.Holds (service.blocks + (total Config.blocks a.configs +
      total Service.blocks (a.services.eraseIdx i) + registryBlocks a.registry + r)) n := by
    refine h.congr ?_
    simp only [App.blocks, total_eraseIdx hget]
    abel
  obtain ⟨result, service', mem, n', hy, -, -, h'⟩ := serviceAddDependency_holds service dependencyName hframe
  rw [hy] at hx
  obtain rfl := Option.some.inj hx
  refine .of_holds h' ?_
  simp only [App.blocks, total_set hget]
  abel

theorem AppOp.register_accounted (hx : (AppOp.register i).exec a = some a') (h : a.Accounted r) : a'.Accounted r := by
  obtain ⟨n, h⟩ := h
  obtain ⟨service, hget, hx⟩ := Option.bind_eq_some_iff.1 hx
  obtain ⟨registry, hreg, hx⟩ := Option.bind_eq_some_iff.1 hx
  rcases serviceRegistryRegister_blocks registry service with ⟨hok, hblocks⟩ | hfail
  · simp only [hok, if_true] at hx
    obtain rfl := Option.some.inj hx
    refine .of_holds h ?_
    simp only [App.blocks, total_eraseIdx hget, hreg, registryBlocks, hblocks]
    abel
  · rw [hfail] at hx
    obtain rfl := Option.some.inj hx
    exact ⟨n, h⟩

theorem AppOp.exec_accounted {op : AppOp} (hx : op.exec a = some a') (h : a.Accounted r) : a'.Accounted r := by
  cases op with
  | createConfig path argv =>
    obtain ⟨n, h⟩ := h
    simp only [exec] at hx
    rcases processConfigCreate_gets path argv h with ⟨mem, hy, h'⟩ | ⟨config, mem, hy, -, h'⟩ <;> rw [hy] at hx <;>
      obtain rfl := Option.some.inj hx
    · exact .of_holds h' (by simp [App.blocks])
    · refine .of_holds h' ?_
      simp only [App.blocks, Option.toList_some, total_snoc]
      abel
  | configure i op => exact configure_accounted hx h
  | destroyConfig i =>
    obtain ⟨n, h⟩ := h
    obtain ⟨config, hget, hx⟩ := Option.bind_eq_some_iff.1 hx
    obtain rfl := Option.some.inj hx
    refine ⟨n, processConfigDestroy_holds (h.congr ?_)⟩
    simp only [App.blocks, total_eraseIdx hget]
    abel
  | createService name i => exact createService_accounted hx h
  | addDependency i dependencyName => exact addDependency_accounted hx h
  | destroyService i =>
    obtain ⟨n, h⟩ := h
    obtain ⟨service, hget, hx⟩ := Option.bind_eq_some_iff.1 hx
    obtain rfl := Option.some.inj hx
    refine ⟨n, serviceDestroy_holds (h.congr ?_)⟩
    simp only [App.blocks, total_eraseIdx hget]
    abel
  | createRegistry =>
    obtain ⟨n, h⟩ := h
    cases hreg : a.registry with
    | some registry => simp only [exec, hreg, reduceCtorEq] at hx
    | none =>
      simp only [exec, hreg] at hx
      obtain rfl := Option.some.inj hx
      rcases serviceRegistryCreate_gets h with ⟨mem, hy, h'⟩ | ⟨registry, mem, hy, -, h'⟩ <;> simp only [hy]
      · exact .of_holds h' (by simp [App.blocks, hreg])
      · refine .of_holds h' ?_
        simp only [App.blocks, hreg, registryBlocks]
        abel
  | register i => exact register_accounted hx h
  | unregister name =>
    obtain ⟨n, h⟩ := h
    obtain ⟨registry, hreg, hx⟩ := Option.bind_eq_some_iff.1 hx
    have hframe : a.mem.Holds (registry.blocks +
        (total Config.blocks a.configs + total Service.blocks a.services + r)) n := by
      refine h.congr ?_
      simp only [App.blocks, hreg, registryBlocks]
      abel
    obtain ⟨result, registry', mem, hy, h'⟩ := serviceRegistryUnregister_holds registry name hframe
    rw [hy] at hx
    obtain rfl := Option.some.inj hx
    refine .of_holds h' ?_
    simp only [App.blocks, registryBlocks]
    abel
  | destroyRegistry =>
    obtain ⟨n, h⟩ := h
    obtain ⟨registry, hreg, hx⟩ := Option.bind_eq_some_iff.1 hx
    obtain rfl := Option.some.inj hx
    refine ⟨n, serviceRegistryDestroy_holds (h.congr ?_)⟩
    simp only [App.blocks, hreg, registryBlocks]
    abel

end Step

/-! ## The end of a program -/

/-- The loop a program destroys its own configurations with. -/
def destroyConfigs : List Config → Mem → Mem
  | [], mem => mem
  | config :: rest, mem => destroyConfigs rest (processConfigDestroy config mem)

/-- The program gives up everything it owns. -/
def App.close (a : App) : Mem :=
  let mem :=
    match a.registry with
    | none => a.mem
    | some registry => serviceRegistryDestroy registry a.mem
  destroyConfigs a.configs (destroyServices a.services mem)

theorem destroyConfigs_holds {r : Multiset Block} {n : Nat} : ∀ {configs : List Config} {mem : Mem},
    mem.Holds (total Config.blocks configs + r) n → (destroyConfigs configs mem).Holds r n
  | [], _, h => h.congr (zero_add r)
  | config :: rest, mem, h => by
    show (destroyConfigs rest (processConfigDestroy config mem)).Holds r n
    refine destroyConfigs_holds (processConfigDestroy_holds (h.congr ?_))
    rw [total_cons, add_assoc]

theorem App.close_holds {r : Multiset Block} {n : Nat} {a : App} (h : a.mem.Holds (a.blocks + r) n) :
    a.close.Holds r n := by
  unfold App.close
  refine destroyConfigs_holds (destroyServices_holds ?_)
  have hblocks : a.mem.Holds (registryBlocks a.registry +
      (total Service.blocks a.services + (total Config.blocks a.configs + r))) n := by
    refine h.congr ?_
    simp only [App.blocks]
    abel
  cases hreg : a.registry with
  | none =>
    rw [hreg] at hblocks
    exact hblocks.congr (zero_add _)
  | some registry =>
    rw [hreg] at hblocks
    exact serviceRegistryDestroy_holds hblocks

/-- Whatever a program does with configurations, services and a registry, and whatever memory it is
refused: memory holds what its objects own, no two of which share a block, nothing was freed twice, and
giving everything up leaves what was there before. -/
theorem app_memory {mem : Mem} {r : Multiset Block} {n : Nat} (hmem : mem.Holds r n) {a : App}
    (h : Runs AppOp.exec (fun _ _ => True) ⟨[], [], none, mem⟩ a) :
    ∃ n', a.mem.Holds (a.blocks + r) n' ∧ (a.blocks + r).Nodup ∧ a.close.Holds r n' := by
  have hstart : App.Accounted r ⟨[], [], none, mem⟩ := .of_holds hmem (by simp [App.blocks, registryBlocks])
  obtain ⟨n', h'⟩ := h.holds (fun _ _ _ ha _ hx => AppOp.exec_accounted hx ha) hstart
  exact ⟨n', h', h'.nodup, App.close_holds h'⟩

/-- A service created, registered and given a dependency that there is no memory for. -/
theorem app_memory_registered :
    ∃ (a : App) (n' : Nat), a.mem.Holds (a.blocks + 0) n' ∧ (a.blocks + 0).Nodup ∧ a.close.Holds 0 n' :=
  ⟨_, app_memory (freshMem_holds 8)
    (((((Runs.refl _).next (AppOp.createConfig "/bin/sh" ["sh"]) trivial rfl).next
      (AppOp.createService "web" 0) trivial rfl).next AppOp.createRegistry trivial rfl).next
      (AppOp.addDependency 0 "db") trivial rfl |>.next (AppOp.register 0) trivial rfl)⟩

end EmblaOs.Memory
