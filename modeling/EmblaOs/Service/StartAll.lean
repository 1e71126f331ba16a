/-
Starting a whole registry. `service_registry_start_all` is a sequence of `service_start` calls along
the start order, without the services one of whose dependencies is not running when their turn
comes. Each service has one turn and its dependencies had theirs before, so what is running at the
end can be read off the spawns that failed.
-/
import EmblaOs.Service.Runs

namespace EmblaOs

open Lib Lib.Topological Relation

/-! ## The order -/

/-- The start order can be computed: there is memory for the three arrays, every dependency is
registered and there is no cycle. Without services there is nothing to compute. -/
def World.Orderable (registry : ServiceRegistry) (w : World) : Prop :=
  registry.services = [] ∨ ((∀ i < 3, w.embla.host.allocs.get i = true) ∧
    DependenciesRegistered w.services registry ∧ DependenciesAcyclic w.services registry)

theorem World.Orderable.dependencies {registry : ServiceRegistry} {w : World} (h : w.Orderable registry) :
    DependenciesRegistered w.services registry ∧ DependenciesAcyclic w.services registry := by
  rcases h with hnil | ⟨-, hdeps⟩
  · exact dependencies_of_empty hnil
  · exact hdeps

/-- `order` has every registered service once, each behind all it depends on. -/
structure StartOrder (heap : Heap Service) (registry : ServiceRegistry) (order : List ServicePtr) : Prop where
  perm : order.Perm registry.services
  nodup : order.Nodup
  respects : Respects (DependsOn heap registry) order

theorem serviceRegistryCount_eq_zero {registry : ServiceRegistry} :
    serviceRegistryCount registry = 0 ↔ registry.services = [] := List.length_eq_zero_iff

theorem computeStartOrder_no_memory (heap : Heap Service) {registry : ServiceRegistry} {host : Host}
    (hne : registry.services ≠ []) (hno : ¬ (host.allocs.get 0 = true ∧ host.allocs.get 1 = true))
    (outOrder : Nat → ServicePtr) (outCount : Nat) :
    ∃ host', serviceRegistryComputeStartOrder heap registry outOrder outCount host = some (-1, outOrder, outCount, host') := by
  have hcount : serviceRegistryCount registry ≠ 0 := fun hc => hne (serviceRegistryCount_eq_zero.1 hc)
  unfold serviceRegistryComputeStartOrder Host.malloc
  simp only [if_neg hcount]
  by_cases h0 : host.allocs.head = false
  · rw [if_pos h0]
    exact ⟨_, rfl⟩
  rw [if_neg h0]
  by_cases h1 : host.allocs.tail.head = false
  · rw [if_pos h1]
    exact ⟨_, rfl⟩
  · exact absurd ⟨by simpa using h0, by simpa using h1⟩ hno

namespace World

variable {registry : ServiceRegistry} {w : World}

/-- The order is there exactly when it can be computed. -/
theorem startOrder_spec (hreg : registry.Inv w.services) (hne : registry.services ≠ []) :
    ∃ allocs, (w.Orderable registry ∧ ∃ order, StartOrder w.services registry order ∧
        w.startOrder registry = some (some order, w.withAllocs allocs)) ∨
      (¬ w.Orderable registry ∧ w.startOrder registry = some (none, w.withAllocs allocs)) := by
  suffices hmain : ∃ answer w', w.startOrder registry = some (answer, w') ∧
      ((w.Orderable registry ∧ ∃ order, StartOrder w.services registry order ∧ answer = some order) ∨
        (¬ w.Orderable registry ∧ answer = none)) by
    obtain ⟨answer, w', hx, hcases⟩ := hmain
    obtain ⟨allocs, rfl⟩ := startOrder_allocs hx
    refine ⟨allocs, ?_⟩
    rcases hcases with ⟨hok, order, horder, rfl⟩ | ⟨hno, rfl⟩
    · exact .inl ⟨hok, order, horder, hx⟩
    · exact .inr ⟨hno, hx⟩
  have hiff : w.Orderable registry ↔ (∀ i < 3, w.embla.host.allocs.get i = true) ∧
      DependenciesRegistered w.services registry ∧ DependenciesAcyclic w.services registry := or_iff_right hne
  rw [hiff]
  unfold startOrder
  simp only
  -- the first allocation is the array of the caller, the other two are the search's
  by_cases h0 : w.malloc.1 = false
  · rw [if_pos h0]
    refine ⟨none, _, rfl, .inr ⟨?_, rfl⟩⟩
    rintro ⟨hallocs, -⟩
    have hfirst : w.malloc.1 = true := hallocs 0 (by decide)
    rw [hfirst] at h0
    cases h0
  rw [if_neg h0]
  by_cases hmem : w.malloc.2.embla.host.allocs.get 0 = true ∧ w.malloc.2.embla.host.allocs.get 1 = true
  · obtain ⟨result, out, count, host, hx, hout⟩ := computeStartOrder_spec hreg (fun _ => 0) 0 fun _ => hmem
    have hx' : serviceRegistryComputeStartOrder w.malloc.2.services registry (fun _ => 0) 0 w.malloc.2.embla.host =
        some (result, out, count, host) := hx
    rw [hx']
    rcases hout with ⟨rfl, -, hperm, hresp, hdeps⟩ | ⟨rfl, -, hno⟩
    · refine ⟨_, _, rfl, .inl ⟨⟨fun i hi => ?_, hdeps⟩, _, ⟨hperm, hperm.nodup_iff.2 hreg.nodup, hresp⟩, rfl⟩⟩
      interval_cases i
      · exact Bool.eq_true_of_not_eq_false h0
      · exact hmem.1
      · exact hmem.2
    · exact ⟨_, _, rfl, .inr ⟨fun hok => hno hok.2, rfl⟩⟩
  · obtain ⟨host, hx⟩ := computeStartOrder_no_memory w.malloc.2.services hne hmem (fun _ => 0) 0
    rw [hx]
    exact ⟨none, _, rfl, .inr ⟨fun hok => hmem ⟨hok.1 1 (by decide), hok.1 2 (by decide)⟩, rfl⟩⟩

theorem orderable_of_order (hreg : registry.Inv w.services) {order : List ServicePtr}
    (h : (w.startOrder registry).map Prod.fst = some (some order)) : w.Orderable registry := by
  by_cases hnil : registry.services = []
  · exact .inl hnil
  obtain ⟨allocs, ⟨hok, -⟩ | ⟨-, hnone⟩⟩ := startOrder_spec hreg hnil
  · exact hok
  · rw [hnone] at h
    cases h

/-! ## Starting one after the other -/

/-- `service_start` on each of the services. -/
def startEach : List ServicePtr → World → World
  | [], w => w
  | s :: rest, w => startEach rest (serviceStart s w).2

theorem startEach_append : ∀ (l l' : List ServicePtr) (w : World), startEach (l ++ l') w = startEach l' (startEach l w)
  | [], _, _ => rfl
  | s :: rest, l', w => startEach_append rest l' (serviceStart s w).2

theorem startEach_other {s : ServicePtr} : ∀ (l : List ServicePtr) (w : World), s ∉ l →
    (startEach l w).service s = w.service s
  | [], _, _ => rfl
  | t :: rest, w, hs => by
    rw [List.mem_cons, not_or] at hs
    exact (startEach_other rest _ hs.2).trans (serviceStart_other hs.1 w)

/-- The same services under the same names with the same dependencies. -/
def SameShape (w w' : World) : Prop :=
  ∀ s, (w'.service s).name = (w.service s).name ∧ (w'.service s).dependencies = (w.service s).dependencies

theorem serviceStart_shape (s : ServicePtr) (w : World) : SameShape w (serviceStart s w).2 := by
  intro t
  rcases eq_or_ne t s with rfl | hne
  · rcases serviceStart_self t w with ⟨-, hx⟩ | ⟨-, -, p, now, hx⟩ <;> rw [hx]
    · exact ⟨rfl, rfl⟩
    · exact ⟨rfl, rfl⟩
  · rw [serviceStart_other hne]
    exact ⟨rfl, rfl⟩

theorem SameShape.trans {w₁ w₂ w₃ : World} (h : SameShape w₁ w₂) (h' : SameShape w₂ w₃) : SameShape w₁ w₃ :=
  fun s => ⟨(h' s).1.trans (h s).1, (h' s).2.trans (h s).2⟩

theorem startEach_shape : ∀ (l : List ServicePtr) (w : World), SameShape w (startEach l w)
  | [], _ => fun _ => ⟨rfl, rfl⟩
  | s :: rest, w => (serviceStart_shape s w).trans (startEach_shape rest _)

theorem SameShape.inv {w' : World} (h : SameShape w w') (hreg : registry.Inv w.services) : registry.Inv w'.services :=
  hreg.write fun s _ => (h s).1

theorem allDependenciesRunning_iff (hreg : registry.Inv w.services) (s : ServicePtr) :
    allDependenciesRunning registry s w = true ↔ ∀ name ∈ (w.service s).dependencies, ∃ d ∈ registry.services,
      (w.service d).name = name ∧ (w.service d).state = .running := by
  unfold allDependenciesRunning
  rw [List.all_eq_true]
  refine forall₂_congr fun name _ => ?_
  cases hget : serviceRegistryGet w.services registry name with
  | none =>
    constructor
    · intro hc
      cases hc
    · rintro ⟨d, hd, hname, -⟩
      exact absurd hname (ServiceRegistry.get_none.1 hget d hd)
  | some d =>
    obtain ⟨hd, hname⟩ := hreg.get_iff.1 hget
    constructor
    · intro hrun
      exact ⟨d, hd, hname, by simpa using hrun⟩
    · rintro ⟨d', hd', hname', hrun⟩
      have hdd : d' = d := hreg.name_inj hd' hd (hname'.trans hname.symm)
      subst hdd
      simpa using hrun

/-! ## The turns of the loop -/

end World

/-- The services of `order` that `start_all` calls `service_start` on. -/
def startAllStarted (registry : ServiceRegistry) : List ServicePtr → World → List ServicePtr
  | [], _ => []
  | s :: rest, w =>
    if allDependenciesRunning registry s w = false then startAllStarted registry rest w
    else s :: startAllStarted registry rest (serviceStart s w).2

section Turns

variable (registry : ServiceRegistry)

variable {registry} in
theorem startAllStarted_skip {s : ServicePtr} {w : World} (h : allDependenciesRunning registry s w = false)
    (rest : List ServicePtr) : startAllStarted registry (s :: rest) w = startAllStarted registry rest w :=
  if_pos h

variable {registry} in
theorem startAllStarted_start {s : ServicePtr} {w : World} (h : allDependenciesRunning registry s w = true)
    (rest : List ServicePtr) :
    startAllStarted registry (s :: rest) w = s :: startAllStarted registry rest (serviceStart s w).2 :=
  if_neg (by rw [h]; exact Bool.noConfusion)

theorem startAllLoop_world : ∀ (order : List ServicePtr) (started : Int) (w : World),
    (startAllLoop registry order started w).2 = w.startEach (startAllStarted registry order w)
  | [], _, _ => rfl
  | s :: rest, started, w => by
    unfold startAllLoop startAllStarted
    split
    · exact startAllLoop_world rest started w
    · exact startAllLoop_world rest _ _

theorem startAllStarted_sublist : ∀ (order : List ServicePtr) (w : World), (startAllStarted registry order w).Sublist order
  | [], _ => .slnil
  | s :: rest, w => by
    unfold startAllStarted
    split
    · exact (startAllStarted_sublist rest w).cons s
    · exact (startAllStarted_sublist rest _).cons_cons s

theorem startAllStarted_append : ∀ (order order' : List ServicePtr) (w : World),
    startAllStarted registry (order ++ order') w = startAllStarted registry order w ++
      startAllStarted registry order' (w.startEach (startAllStarted registry order w))
  | [], _, _ => rfl
  | s :: rest, order', w => by
    rw [List.cons_append]
    cases hrun : allDependenciesRunning registry s w with
    | false =>
      rw [startAllStarted_skip hrun, startAllStarted_skip hrun]
      exact startAllStarted_append rest order' w
    | true =>
      rw [startAllStarted_start hrun, startAllStarted_start hrun, startAllStarted_append rest order']
      rfl

/-- Whoever is started has all its dependencies running at that moment. -/
theorem startAllStarted_ready : ∀ (order : List ServicePtr) (w : World) (pre post : List ServicePtr) (s : ServicePtr),
    startAllStarted registry order w = pre ++ s :: post → allDependenciesRunning registry s (w.startEach pre) = true
  | [], _, pre, post, s, h => by simp [startAllStarted] at h
  | t :: rest, w, pre, post, s, h => by
    unfold startAllStarted at h
    split at h
    · exact startAllStarted_ready rest w pre post s h
    · rename_i hrun
      cases pre with
      | nil =>
        cases h
        exact Bool.eq_true_of_not_eq_false hrun
      | cons u pre =>
        rw [List.cons_append, List.cons.injEq] at h
        obtain ⟨rfl, h⟩ := h
        exact startAllStarted_ready rest _ pre post s h

/-- The call counts the services that were stopped before and run afterwards. -/
theorem startAllLoop_count : ∀ (order : List ServicePtr) (started : Int) (w : World), order.Nodup →
    (startAllLoop registry order started w).1 = started + (order.countP fun s =>
      (w.service s).state = .stopped ∧ ((startAllLoop registry order started w).2.service s).state = .running)
  | [], started, w, _ => by simp [startAllLoop]
  | s :: rest, started, w, hnodup => by
    obtain ⟨hs, hrest⟩ := List.nodup_cons.1 hnodup
    have hkeep : ∀ (n : Int) (u : World), (startAllLoop registry rest n u).2.service s = u.service s := by
      intro n u
      rw [startAllLoop_world]
      exact World.startEach_other _ u fun hc => hs ((startAllStarted_sublist registry rest u).subset hc)
    unfold startAllLoop
    split
    · rw [startAllLoop_count rest started w hrest, List.countP_cons_of_neg]
      -- a skipped service is as it was
      rw [hkeep]
      rintro hc
      rw [decide_eq_true_eq] at hc
      rw [hc.1] at hc
      cases hc.2
    · have hother : ∀ t ∈ rest, (serviceStart s w).2.service t = w.service t :=
        fun t ht => serviceStart_other (by rintro rfl; exact hs ht) w
      simp only
      rw [startAllLoop_count rest _ _ hrest, List.countP_cons, hkeep]
      have hcongr : ∀ n : Int, (rest.countP fun t => ((serviceStart s w).2.service t).state = .stopped ∧
          ((startAllLoop registry rest n (serviceStart s w).2).2.service t).state = .running) =
          rest.countP fun t => (w.service t).state = .stopped ∧
            ((startAllLoop registry rest n (serviceStart s w).2).2.service t).state = .running := by
        intro n
        refine List.countP_congr fun t ht => ?_
        rw [hother t ht]
      rw [hcongr]
      rcases serviceStart_cases s w with ⟨hst, hx⟩ | ⟨hst, e, -, hx⟩ | ⟨hst, p, e, -, hx⟩ <;> rw [hx]
      · simp [hst]
      · simp [hst]
      · simp [hst, Service.launched]
        ring

/-- What the turn of `s` does, and that nothing later touches `s` or what stands before it. -/
theorem startAll_turn {before after : List ServicePtr} {s : ServicePtr} (hnodup : (before ++ s :: after).Nodup) (w : World) :
    let u := w.startEach (startAllStarted registry before w)
    let w' := w.startEach (startAllStarted registry (before ++ s :: after) w)
    u.service s = w.service s ∧ (∀ d ∈ before, w'.service d = u.service d) ∧
    ((allDependenciesRunning registry s u = false ∧ w'.service s = u.service s) ∨
      (allDependenciesRunning registry s u = true ∧ w'.service s = (serviceStart s u).2.service s ∧
        ∃ post, startAllStarted registry (before ++ s :: after) w = startAllStarted registry before w ++ s :: post)) := by
  intro u w'
  obtain ⟨-, hrest, hdisj⟩ := List.nodup_append.1 hnodup
  obtain ⟨hs, -⟩ := List.nodup_cons.1 hrest
  have hstarted : startAllStarted registry (before ++ s :: after) w =
      startAllStarted registry before w ++ startAllStarted registry (s :: after) u := startAllStarted_append ..
  have hw' : w' = u.startEach (startAllStarted registry (s :: after) u) := by
    change w.startEach _ = _
    rw [hstarted, World.startEach_append]
  -- a turn starts its own service and no other
  have hlater : ∀ (l : List ServicePtr) (v : World) (t : ServicePtr), t ∉ l →
      (v.startEach (startAllStarted registry l v)).service t = v.service t :=
    fun l v t ht => World.startEach_other _ v fun hc => ht ((startAllStarted_sublist registry l v).subset hc)
  refine ⟨hlater before w s fun hc => hdisj s hc s List.mem_cons_self rfl, fun d hd => ?_, ?_⟩
  · rw [hw']
    exact hlater _ u d fun hc => hdisj d hd d hc rfl
  · cases hrun : allDependenciesRunning registry s u with
    | false =>
      left
      rw [hw', startAllStarted_skip hrun]
      exact ⟨rfl, hlater after u s hs⟩
    | true =>
      right
      rw [hw', hstarted, startAllStarted_start hrun]
      exact ⟨rfl, hlater after _ s hs, _, rfl⟩

end Turns

/-! ## The whole call -/

namespace World

variable {registry : ServiceRegistry} {w w' : World} {started : List ServicePtr} {result : Int}

/-- Among the starts of `started` from `w` is one of `s`, which was stopped, and its spawn failed. -/
def SpawnFailed (started : List ServicePtr) (w : World) (s : ServicePtr) : Prop :=
  ∃ pre post, started = pre ++ s :: post ∧ ((w.startEach pre).service s).state = .stopped ∧
    (emblaSpawn ((w.startEach pre).service s).name (w.startEach pre).embla).1 = none

/-- The call starts the services of `started` in turn, each once and with its dependencies running,
and counts the ones that are running now. -/
structure StartsEach (registry : ServiceRegistry) (started : List ServicePtr) (w w' : World) (result : Int) : Prop where
  ends : w' = w.startEach started
  once : started.Nodup
  ready : ∀ pre s post, started = pre ++ s :: post → s ∈ registry.services ∧
    ∀ name ∈ ((w.startEach pre).service s).dependencies, ∃ d ∈ registry.services,
      ((w.startEach pre).service d).name = name ∧ ((w.startEach pre).service d).state = .running
  counts : result = registry.services.countP fun s =>
    (w.service s).state = .stopped ∧ (w'.service s).state = .running
  others : ∀ s ∉ registry.services, w'.service s = w.service s

/-- Registered services that bring their dependencies along and none of whose spawns failed. -/
structure Startable (registry : ServiceRegistry) (started : List ServicePtr) (w : World) (services : Set ServicePtr) :
    Prop where
  registered : ∀ s ∈ services, s ∈ registry.services
  closed : ∀ s ∈ services, ∀ d, TransGen (DependsOn w.services registry) s d → d ∈ services
  spawned : ∀ s ∈ services, ¬ SpawnFailed started w s

/-- As many services as the spawns allow are running. -/
structure StartsLargest (registry : ServiceRegistry) (started : List ServicePtr) (w w' : World) : Prop where
  largest : IsGreatest {services | Startable registry started w services}
    {s | s ∈ registry.services ∧ (w'.service s).state = .running}
  stays : ∀ s ∈ registry.services, (w'.service s).state = .stopped → SpawnFailed started w s ∨
    ∃ d, TransGen (DependsOn w.services registry) s d ∧ SpawnFailed started w d

/-- A service whose spawn failed is not tried again. -/
theorem SpawnFailed.stopped {s : ServicePtr} (h : SpawnFailed started w s) (hnodup : started.Nodup) :
    ((w.startEach started).service s).state = .stopped := by
  obtain ⟨pre, post, rfl, hst, hspawn⟩ := h
  obtain ⟨-, hrest, -⟩ := List.nodup_append.1 hnodup
  have hs : s ∉ post := (List.nodup_cons.1 hrest).1
  rw [startEach_append]
  change ((startEach post (serviceStart s (w.startEach pre)).2).service s).state = _
  rw [startEach_other post _ hs]
  rcases serviceStart_cases s (w.startEach pre) with ⟨hc, -⟩ | ⟨-, e, -, hx⟩ | ⟨-, p, e, hx, -⟩
  · exact absurd hst hc
  · rw [hx]
    exact hst
  · rw [hx] at hspawn
    cases hspawn

/-- With every dependency registered the check of the loop is about the services depended on. -/
theorem allDependenciesRunning_dependsOn (hreg : registry.Inv w.services) (hdeps : DependenciesRegistered w.services registry)
    (hshape : SameShape w w') {s : ServicePtr} (hs : s ∈ registry.services) :
    allDependenciesRunning registry s w' = true ↔
      ∀ d, DependsOn w.services registry s d → (w'.service d).state = .running := by
  rw [allDependenciesRunning_iff (hshape.inv hreg), (hshape s).2]
  constructor
  · rintro hall d ⟨-, hd, hname⟩
    obtain ⟨d', hd', hname', hrun⟩ := hall _ hname
    have hdd : d' = d := hreg.name_inj hd' hd ((hshape d').1.symm.trans hname')
    subst hdd
    exact hrun
  · intro hall name hname
    obtain ⟨d, hd, hdn⟩ := hdeps s hs name hname
    refine ⟨d, hd, (hshape d).1.trans hdn, hall d ⟨hs, hd, ?_⟩⟩
    rw [hdn]
    exact hname

section Outcome

variable {order : List ServicePtr} (hreg : registry.Inv w.services) (horder : StartOrder w.services registry order)
  (hdeps : DependenciesRegistered w.services registry)

include hreg horder hdeps

/-- A stopped service ends up running over running dependencies, or stopped because its spawn failed
or because something it depends on is not running. -/
theorem startAll_outcome {s : ServicePtr} (hs : s ∈ registry.services) (hst : (w.service s).state = .stopped) :
    (((w.startEach (startAllStarted registry order w)).service s).state = .running ∧
      ∀ d, DependsOn w.services registry s d →
        ((w.startEach (startAllStarted registry order w)).service d).state = .running) ∨
    (((w.startEach (startAllStarted registry order w)).service s).state = .stopped ∧
      (SpawnFailed (startAllStarted registry order w) w s ∨ ∃ d, DependsOn w.services registry s d ∧
        ((w.startEach (startAllStarted registry order w)).service d).state ≠ .running)) := by
  obtain ⟨before, after, rfl⟩ := List.append_of_mem (horder.perm.mem_iff.2 hs)
  obtain ⟨hself, hbefore, hturn⟩ := startAll_turn registry horder.nodup w
  have hshape := startEach_shape (startAllStarted registry before w) w
  have hcheck := allDependenciesRunning_dependsOn hreg hdeps hshape hs
  have hkeep : ∀ d, DependsOn w.services registry s d →
      (w.startEach (startAllStarted registry (before ++ s :: after) w)).service d =
        (w.startEach (startAllStarted registry before w)).service d :=
    fun d hd => hbefore d (horder.respects before s after rfl d hd)
  rcases hturn with ⟨hrun, hsame⟩ | ⟨hrun, hsame, post, hstarted⟩
  · -- skipped
    right
    rw [hsame, hself]
    refine ⟨hst, .inr ?_⟩
    rw [← Bool.not_eq_true, hcheck, not_forall] at hrun
    obtain ⟨d, hd⟩ := hrun
    rw [Classical.not_imp] at hd
    refine ⟨d, hd.1, ?_⟩
    rw [hkeep d hd.1]
    exact hd.2
  · rw [hsame]
    have hst' : ((w.startEach (startAllStarted registry before w)).service s).state = .stopped := by
      rw [hself]
      exact hst
    rcases serviceStart_cases s (w.startEach (startAllStarted registry before w)) with
      ⟨hc, -⟩ | ⟨-, e, hspawn, hx⟩ | ⟨-, p, e, -, hx⟩
    · exact absurd hst' hc
    · right
      rw [hx]
      exact ⟨hst', .inl ⟨_, post, hstarted, hst', by rw [hspawn]⟩⟩
    · left
      rw [hx]
      refine ⟨by simp [Service.launched], fun d hd => ?_⟩
      rw [hkeep d hd]
      exact hcheck.1 hrun d hd

theorem startAll_largest (hall : ∀ s ∈ registry.services, (w.service s).state = .stopped) :
    StartsLargest registry (startAllStarted registry order w) w (w.startEach (startAllStarted registry order w)) := by
  have hnodup : (startAllStarted registry order w).Nodup := horder.nodup.sublist (startAllStarted_sublist registry order w)
  have hstays : ∀ s ∈ order, ((w.startEach (startAllStarted registry order w)).service s).state = .stopped →
      SpawnFailed (startAllStarted registry order w) w s ∨
      ∃ d, TransGen (DependsOn w.services registry) s d ∧ SpawnFailed (startAllStarted registry order w) w d := by
    -- along the order: the dependency that is missing is missing for a reason of its own
    refine horder.respects.induction fun s hs ih hst => ?_
    have hin : s ∈ registry.services := horder.perm.mem_iff.1 hs
    rcases startAll_outcome hreg horder hdeps hin (hall s hin) with ⟨hrun, -⟩ | ⟨-, hfail | ⟨d, hd, hnot⟩⟩
    · rw [hst] at hrun
      cases hrun
    · exact .inl hfail
    · right
      have hdst : ((w.startEach (startAllStarted registry order w)).service d).state = .stopped := by
        cases hx : ((w.startEach (startAllStarted registry order w)).service d).state with
        | stopped => rfl
        | running => exact absurd hx hnot
      rcases ih d hd hdst with hfail | ⟨d', hd', hfail⟩
      · exact ⟨d, .single hd, hfail⟩
      · exact ⟨d', .head hd hd', hfail⟩
  have hclosed : ∀ s d, TransGen (DependsOn w.services registry) s d →
      ((w.startEach (startAllStarted registry order w)).service s).state = .running →
      ((w.startEach (startAllStarted registry order w)).service d).state = .running := by
    intro s d hsd
    have hstep : ∀ a b, DependsOn w.services registry a b →
        ((w.startEach (startAllStarted registry order w)).service a).state = .running →
        ((w.startEach (startAllStarted registry order w)).service b).state = .running := by
      intro a b hab ha
      rcases startAll_outcome hreg horder hdeps hab.1 (hall a hab.1) with ⟨-, hrun⟩ | ⟨hst, -⟩
      · exact hrun b hab
      · rw [ha] at hst
        cases hst
    induction hsd with
    | single hab => exact hstep _ _ hab
    | tail _ hbc ih => exact fun ha => hstep _ _ hbc (ih ha)
  refine ⟨⟨⟨fun s hs => hs.1, fun s hs d hsd => ⟨?_, hclosed s d hsd hs.2⟩, fun s hs hfail => ?_⟩, ?_⟩,
    fun s hs => hstays s (horder.perm.mem_iff.2 hs)⟩
  · obtain ⟨b, -, hbd⟩ := (TransGen.tail'_iff).1 hsd
    exact hbd.2.1
  · have hst := hfail.stopped hnodup
    rw [hs.2] at hst
    cases hst
  · intro services hc s hs
    refine ⟨hc.registered s hs, ?_⟩
    cases hx : ((w.startEach (startAllStarted registry order w)).service s).state with
    | running => rfl
    | stopped =>
      rcases hstays s (horder.perm.mem_iff.2 (hc.registered s hs)) hx with hfail | ⟨d, hd, hfail⟩
      · exact absurd hfail (hc.spawned s hs)
      · exact absurd hfail (hc.spawned d (hc.closed s hs d hd))

omit hdeps in
theorem startAll_startsEach :
    StartsEach registry (startAllStarted registry order w) w (startAllLoop registry order 0 w).2
      (startAllLoop registry order 0 w).1 := by
  have hsub := startAllStarted_sublist registry order w
  refine ⟨startAllLoop_world .., horder.nodup.sublist hsub, fun pre s post heq => ⟨?_, ?_⟩, ?_, fun s hs => ?_⟩
  · refine horder.perm.mem_iff.1 (hsub.subset ?_)
    rw [heq]
    exact List.mem_append_right _ List.mem_cons_self
  · have hrun := startAllStarted_ready registry order w pre post s heq
    exact (allDependenciesRunning_iff ((startEach_shape pre w).inv hreg) s).1 hrun
  · rw [startAllLoop_count registry order 0 w horder.nodup, zero_add, horder.perm.countP_eq]
  · rw [startAllLoop_world]
    exact startEach_other _ w fun hc => hs (horder.perm.mem_iff.1 (hsub.subset hc))

end Outcome

/-- `service_registry_start_all` always returns. Without an order it returns -1 and has only
allocated; with one it starts what can be started. -/
theorem startAll_correct (hreg : registry.Reachable w.services) :
    ∃ result w', serviceRegistryStartAll registry w = some (result, w') ∧
      (¬ w.Orderable registry → result = -1 ∧ ∃ allocs, w' = w.withAllocs allocs) ∧
      (w.Orderable registry → ∃ started allocs, StartsEach registry started (w.withAllocs allocs) w' result ∧
        ((∀ s ∈ registry.services, (w.service s).state = .stopped) →
          StartsLargest registry started (w.withAllocs allocs) w')) := by
  unfold serviceRegistryStartAll
  by_cases hnil : registry.services = []
  · rw [if_pos (serviceRegistryCount_eq_zero.2 hnil)]
    refine ⟨0, w, rfl, fun hno => absurd (.inl hnil) hno, fun _ => ⟨[], w.embla.host.allocs, ?_, fun _ => ?_⟩⟩
    · refine ⟨rfl, List.nodup_nil, fun pre s post heq => by simp at heq, by simp [hnil], fun _ _ => rfl⟩
    · have hno : ∀ s, s ∉ registry.services := by simp [hnil]
      refine ⟨⟨⟨fun s hs => hs.1, fun s hs => absurd hs.1 (hno s), fun s hs => absurd hs.1 (hno s)⟩, ?_⟩,
        fun s hs => absurd hs (hno s)⟩
      exact fun services hc s hs => absurd (hc.registered s hs) (hno s)
  · rw [if_neg fun hc => hnil (serviceRegistryCount_eq_zero.1 hc)]
    obtain ⟨allocs, ⟨hok, order, horder, hx⟩ | ⟨hno, hx⟩⟩ := startOrder_spec hreg.inv hnil <;> rw [hx]
    · have hdeps := hok.dependencies.1
      have hinv : registry.Inv (w.withAllocs allocs).services := hreg.inv
      refine ⟨_, _, rfl, fun hno => absurd hok hno, fun _ => ⟨_, allocs, startAll_startsEach hinv horder, fun hall => ?_⟩⟩
      rw [startAllLoop_world]
      exact startAll_largest hinv horder hdeps hall
    · exact ⟨-1, _, rfl, fun _ => ⟨rfl, allocs, rfl⟩, fun hok => absurd hok hno⟩

end World

/-- The web service and its database on a host that cannot fork the first time it is asked. -/
def firstForkFails : World :=
  ⟨emblaCreate { Host.generous [] [] 0 with forks := fun n => if n = 0 then none else some ⟨n + 1, HostPid.succ_pos n⟩ }, webAndDb, []⟩

theorem firstForkFails_orderable : firstForkFails.Orderable webAndDbRegistry := by
  have hx : (firstForkFails.startOrder webAndDbRegistry).map Prod.fst = some (some [1, 0]) := by decide +kernel
  exact World.orderable_of_order webAndDbRegistry_reachable.inv hx

/-- The spawn of the database fails, so the web service is not tried, and that is as much as can be
running. -/
theorem startAll_correct_firstForkFails :
    ∃ w' started allocs, serviceRegistryStartAll webAndDbRegistry firstForkFails = some (0, w') ∧
      World.StartsEach webAndDbRegistry started (firstForkFails.withAllocs allocs) w' 0 ∧
      World.StartsLargest webAndDbRegistry started (firstForkFails.withAllocs allocs) w' := by
  obtain ⟨result, w', hx, -, hok⟩ := World.startAll_correct (w := firstForkFails) webAndDbRegistry_reachable
  obtain ⟨started, allocs, heach, hlargest⟩ := hok firstForkFails_orderable
  have hresult : (serviceRegistryStartAll webAndDbRegistry firstForkFails).map Prod.fst = some 0 := by decide +kernel
  rw [hx] at hresult
  cases hresult
  exact ⟨w', started, allocs, hx, heach, hlargest (by decide)⟩

end EmblaOs
