/-
What the colours say in every state of the search. The gray services are those of the calls in progress,
outermost first, followed by those of the calls that have already returned -1; they form a chain of
dependencies. As many services are black as have been written, so there is room for the next one, and a
service is entered while it is white, so never twice.
-/
import EmblaOs.Service.Search

namespace EmblaOs

open Lib Relation

/-! ## The invariant -/

/-- The indices of the calls in progress, outermost first, and behind them of those that have failed. -/
def Search.line (x : Search) : List Nat := (x.path.map VisitFrame.index).reverse ++ x.log.failed

section Invariant

variable (heap : Heap Service) (registry : ServiceRegistry)

def IndexDependsOn (i j : Nat) : Prop :=
  ∃ s d, registry.services[i]? = some s ∧ registry.services[j]? = some d ∧ DependsOn heap registry s d

structure Search.Inv (x : Search) : Prop where
  size : x.st.colors.length = registry.services.length
  entered : x.log.entered.Nodup
  colored : ∀ s ∈ x.log.entered, ∃ i : Nat, registry.services[i]? = some s ∧ x.st.colors[i]? ≠ some .white
  black : x.st.colors.count .black = x.st.outIndex
  gray : ∀ i : Nat, x.st.colors[i]? = some .gray ↔ i ∈ x.line
  nodup : x.line.Nodup
  chain : x.line.IsChain (IndexDependsOn heap registry)
  ahead : ∀ frame ∈ x.path, ∃ s, registry.services[frame.index]? = some s ∧
    ∀ name ∈ frame.ahead, name ∈ (heap.read s).dependencies
  failed : x.log.failed ≠ [] → x.control = .returned (-1) ∨ x.control = .done (-1)
  writes : ∀ k ∈ x.log.writes, k < registry.services.length
  missing : x.log.missing = false

end Invariant

section Steps

variable {heap : Heap Service} {registry : ServiceRegistry} {x y : Search}

theorem Search.Inv.none_failed (h : x.Inv heap registry) (hrunning : x.control = .running) : x.log.failed = [] := by
  by_contra hne
  rcases h.failed hne with hc | hc <;> rw [hrunning] at hc <;> cases hc

/-- A step that colours, enters and writes nothing and leaves the line as it is. -/
theorem Search.Inv.of_line (h : x.Inv heap registry) (hst : y.st = x.st) (hentered : y.log.entered = x.log.entered)
    (hwrites : y.log.writes = x.log.writes) (hmissing : y.log.missing = x.log.missing) (hline : y.line = x.line)
    (hahead : ∀ frame ∈ y.path, ∃ frame' ∈ x.path, frame.index = frame'.index ∧ ∀ name ∈ frame.ahead, name ∈ frame'.ahead)
    (hfailed : y.log.failed ≠ [] → y.control = .returned (-1) ∨ y.control = .done (-1)) : y.Inv heap registry where
  size := by rw [hst]; exact h.size
  entered := by rw [hentered]; exact h.entered
  colored := by rw [hentered, hst]; exact h.colored
  black := by rw [hst]; exact h.black
  gray := by rw [hst, hline]; exact h.gray
  nodup := by rw [hline]; exact h.nodup
  chain := by rw [hline]; exact h.chain
  ahead frame hframe := by
    obtain ⟨frame', hframe', hi, hnames⟩ := hahead frame hframe
    obtain ⟨s, hs, hall⟩ := h.ahead frame' hframe'
    exact ⟨s, hi ▸ hs, fun name hname => hall name (hnames name hname)⟩
  failed := hfailed
  writes := by rw [hwrites]; exact h.writes
  missing := hmissing.trans h.missing

/-- A step that moves on in a loop or hands a value up. -/
theorem Search.Inv.move (h : x.Inv heap registry) (roots : List Nat) (path : List VisitFrame) (control : SearchControl)
    (hindex : path.map VisitFrame.index = x.path.map VisitFrame.index)
    (hahead : ∀ frame ∈ path, ∃ frame' ∈ x.path, frame.index = frame'.index ∧ ∀ name ∈ frame.ahead, name ∈ frame'.ahead)
    (hcontrol : x.log.failed ≠ [] → control = .returned (-1) ∨ control = .done (-1)) :
    Search.Inv heap registry { x with roots := roots, path := path, control := control } := by
  refine h.of_line rfl rfl rfl rfl ?_ hahead hcontrol
  unfold Search.line
  rw [hindex]

/-- The line stays as it is when the innermost call fails. -/
theorem Search.Inv.fail (h : x.Inv heap registry) {frame : VisitFrame} {callers : List VisitFrame}
    (hpath : x.path = frame :: callers) : (x.fail frame.index callers).Inv heap registry := by
  refine h.of_line rfl rfl rfl rfl ?_ (fun f hf => ⟨f, ?_, rfl, fun _ hname => hname⟩) fun _ => .inl rfl
  · unfold Search.line
    rw [hpath]
    simp [Search.fail]
  · rw [hpath]
    exact List.mem_cons_of_mem _ hf

/-- A call of a white service that the innermost call depends on, if there is one. -/
theorem Search.Inv.call (hinv : registry.Inv heap) (h : x.Inv heap registry) (hrunning : x.control = .running) {index : Nat}
    {s : ServicePtr} (hs : registry.services[index]? = some s) (hw : x.st.colors[index]? = some .white)
    (hhead : ∀ frame, x.path.head? = some frame → IndexDependsOn heap registry frame.index index) :
    (x.call heap registry.services index).Inv heap registry := by
  have hfailed := h.none_failed hrunning
  have hget : registry.services.getD index 0 = s := by
    rw [List.getD_eq_getElem?_getD, hs]
    rfl
  have hnot : index ∉ x.line := fun hin => by
    rw [(h.gray index).2 hin] at hw
    cases hw
  have hold : x.line = (x.path.map VisitFrame.index).reverse := by
    unfold Search.line
    rw [hfailed, List.append_nil]
  have hline : (x.call heap registry.services index).line = x.line ++ [index] := by
    rw [hold]
    simp [Search.line, Search.call, hfailed]
  have hi := (List.getElem?_eq_some_iff.1 hw).1
  have hwhite : x.st.colors[index] = .white := (List.getElem?_eq_some_iff.1 hw).2
  refine ⟨?_, ?_, fun t ht => ?_, ?_, fun i => ?_, ?_, ?_, fun frame hframe => ?_, ?_, h.writes, h.missing⟩
  · simpa [Search.call] using h.size
  · refine List.nodup_cons.2 ⟨fun hin => ?_, h.entered⟩
    rw [hget] at hin
    obtain ⟨i, hi, hne⟩ := h.colored s hin
    rw [index_unique hinv hi hs] at hne
    exact hne hw
  · rcases List.mem_cons.1 ht with rfl | ht
    · refine ⟨index, by rw [hget]; exact hs, ?_⟩
      simp [Search.call, List.getElem?_set_self hi]
    · obtain ⟨i, hi', hne⟩ := h.colored t ht
      refine ⟨i, hi', ?_⟩
      rcases eq_or_ne index i with rfl | hdiff
      · exact absurd hw hne
      · simpa [Search.call, List.getElem?_set_ne hdiff] using hne
  · show (x.st.colors.set index .gray).count .black = x.st.outIndex
    rw [List.count_set hi, hwhite, ← h.black]
    simp
  · rw [hline, List.mem_append, List.mem_singleton, ← h.gray]
    show (x.st.colors.set index .gray)[i]? = some .gray ↔ _
    rcases eq_or_ne index i with rfl | hdiff
    · simp [List.getElem?_set_self hi]
    · rw [List.getElem?_set_ne hdiff]
      exact ⟨.inl, fun hor => hor.resolve_right fun heq => hdiff heq.symm⟩
  · rw [hline]
    refine List.nodup_append.2 ⟨h.nodup, List.nodup_singleton _, ?_⟩
    rintro i hin j hj rfl
    exact hnot (List.mem_singleton.1 hj ▸ hin)
  · rw [hline]
    refine h.chain.append (List.isChain_singleton _) fun i hlast j hj => ?_
    cases hj
    rw [hold, List.getLast?_reverse, List.head?_map, Option.mem_def, Option.map_eq_some_iff] at hlast
    obtain ⟨frame, hframe, rfl⟩ := hlast
    exact hhead frame hframe
  · rcases List.mem_cons.1 hframe with rfl | hframe
    · refine ⟨s, hs, fun name hname => ?_⟩
      rwa [hget] at hname
    · exact h.ahead frame hframe
  · intro hne
    exact absurd hfailed hne

/-- The innermost call paints its service black and writes it behind those that are black already. -/
theorem Search.Inv.finish (h : x.Inv heap registry) (hrunning : x.control = .running) {frame : VisitFrame}
    {callers : List VisitFrame} (hpath : x.path = frame :: callers) (service : ServicePtr) :
    (x.finish frame.index service callers).Inv heap registry := by
  have hfailed := h.none_failed hrunning
  have hline : x.line = (x.finish frame.index service callers).line ++ [frame.index] := by
    unfold Search.line
    rw [hpath]
    simp [Search.finish, hfailed]
  have hnodup := h.nodup
  rw [hline] at hnodup
  have hnot : frame.index ∉ (x.finish frame.index service callers).line := fun hin =>
    (List.nodup_append.1 hnodup).2.2 _ hin _ (List.mem_singleton.2 rfl) rfl
  have hg : x.st.colors[frame.index]? = some .gray := (h.gray _).2 (by rw [hline]; simp)
  have hi := (List.getElem?_eq_some_iff.1 hg).1
  have hgray : x.st.colors[frame.index] = .gray := (List.getElem?_eq_some_iff.1 hg).2
  have hblack : (x.st.colors.set frame.index .black).count .black = x.st.outIndex + 1 := by
    rw [List.count_set hi, hgray, h.black]
    simp
  refine ⟨?_, h.entered, fun t ht => ?_, hblack, fun i => ?_, ?_, ?_, fun f hf => ?_, ?_, fun k hk => ?_, h.missing⟩
  · simpa [Search.finish] using h.size
  · obtain ⟨i, hi', hne⟩ := h.colored t ht
    refine ⟨i, hi', ?_⟩
    rcases eq_or_ne frame.index i with rfl | hdiff
    · simp [Search.finish, List.getElem?_set_self hi]
    · simpa [Search.finish, List.getElem?_set_ne hdiff] using hne
  · show (x.st.colors.set frame.index .black)[i]? = some .gray ↔ _
    rcases eq_or_ne frame.index i with rfl | hdiff
    · rw [List.getElem?_set_self hi]
      exact iff_of_false (by simp) hnot
    · rw [List.getElem?_set_ne hdiff, h.gray, hline, List.mem_append, List.mem_singleton]
      exact or_iff_left fun heq => hdiff heq.symm
  · exact (List.nodup_append.1 hnodup).1
  · have hchain := h.chain
    rw [hline] at hchain
    exact hchain.left_of_append
  · exact h.ahead f (by rw [hpath]; exact List.mem_cons_of_mem _ hf)
  · intro hne
    exact absurd hfailed hne
  · rcases List.mem_cons.1 hk with rfl | hk
    · -- one more is black, and no more can be than there are services
      have hle := List.count_le_length (a := ServiceSortColor.black) (l := x.st.colors.set frame.index .black)
      rw [hblack, List.length_set, h.size] at hle
      exact hle
    · exact h.writes k hk

theorem searchStep_inv (hinv : registry.Inv heap) (h : x.Inv heap registry)
    (hx : searchStep heap registry registry.services x = some y) : y.Inv heap registry := by
  obtain ⟨roots, path, control, st, log⟩ := x
  have hsame : ∀ frame ∈ path, ∃ frame' ∈ path, frame.index = frame'.index ∧ ∀ name ∈ frame.ahead, name ∈ frame'.ahead :=
    fun frame hframe => ⟨frame, hframe, rfl, fun _ hname => hname⟩
  rcases control with _ | result | result
  · have hfailed : log.failed = [] := h.none_failed rfl
    rcases path with _ | ⟨⟨index, _ | ⟨depName, rest⟩⟩, callers⟩
    · rcases roots with _ | ⟨i, roots⟩
      · cases hx
        exact h.move [] [] (.done 0) rfl hsame fun hne => absurd hfailed hne
      · rcases hcol : st.colors[i]? with _ | _ | _ | _ <;> simp only [searchStep, hcol, Option.some.injEq] at hx <;> subst hx
        · exact h.move roots [] .running rfl hsame fun hne => absurd hfailed hne
        · have hlt := (List.getElem?_eq_some_iff.1 hcol).1
          rw [h.size] at hlt
          have hmoved := h.move roots [] .running rfl hsame fun hne => absurd hfailed hne
          exact hmoved.call hinv rfl (List.getElem?_eq_getElem hlt) hcol fun frame hframe => by cases hframe
        · exact h.move roots [] .running rfl hsame fun hne => absurd hfailed hne
        · exact h.move roots [] .running rfl hsame fun hne => absurd hfailed hne
    · cases hx
      exact h.finish rfl rfl _
    · cases hx
      obtain ⟨s, hs, hnames⟩ := h.ahead _ List.mem_cons_self
      unfold Search.look
      cases hget : serviceRegistryGet heap registry depName with
      | none => exact h.fail rfl
      | some dep =>
        obtain ⟨hdep, hname⟩ := hinv.get_iff.1 hget
        obtain ⟨depIndex, hf, hidx⟩ := serviceOrchestratorFindIndex_mem hdep
        -- the name was looked up, so the service found is a dependency
        have hedge : IndexDependsOn heap registry index depIndex :=
          ⟨s, dep, hs, hidx, List.mem_of_getElem? hs, hdep, hname ▸ hnames _ List.mem_cons_self⟩
        have hmoved := h.move roots (⟨index, rest⟩ :: callers) .running rfl (fun frame hframe => by
          rcases List.mem_cons.1 hframe with rfl | hframe
          · exact ⟨_, List.mem_cons_self, rfl, fun _ hname => List.mem_cons_of_mem _ hname⟩
          · exact ⟨frame, List.mem_cons_of_mem _ hframe, rfl, fun _ hname => hname⟩) fun hne => absurd hfailed hne
        simp only [hf]
        rcases hcol : st.colors[depIndex]? with _ | _ | _ | _ <;> simp only
        · exact hmoved
        · refine hmoved.call hinv rfl hidx hcol fun frame hframe => ?_
          cases hframe
          exact hedge
        · exact h.fail rfl
        · exact hmoved
  · rcases path with _ | ⟨frame, callers⟩
    · simp only [searchStep] at hx
      split at hx <;> cases hx
      · exact h.move roots [] (.done (-1)) rfl hsame fun _ => .inr rfl
      · rename_i hzero
        rw [not_not] at hzero
        refine h.move roots [] .running rfl hsame fun hne => ?_
        rcases h.failed hne with hc | hc <;> cases hc
        cases hzero
    · simp only [searchStep] at hx
      split at hx <;> cases hx
      · exact h.fail rfl
      · rename_i hzero
        rw [not_not] at hzero
        refine h.move roots (frame :: callers) .running rfl hsame fun hne => ?_
        rcases h.failed hne with hc | hc <;> cases hc
        cases hzero
  · cases hx

end Steps

/-! ## Every state of the search -/

/-- The states that the search for a start order goes through. -/
abbrev SearchRuns (heap : Heap Service) (registry : ServiceRegistry) (outOrder : Nat → ServicePtr) (x : Search) : Prop :=
  SearchSteps heap registry registry.services (searchStart registry outOrder) x

section Main

variable {heap : Heap Service} {registry : ServiceRegistry} {outOrder : Nat → ServicePtr} {x : Search}

theorem searchStart_inv (heap : Heap Service) (registry : ServiceRegistry) (outOrder : Nat → ServicePtr) :
    (searchStart registry outOrder).Inv heap registry := by
  have hline : (searchStart registry outOrder).line = [] := rfl
  have hcolor : ∀ (i : Nat) color, (searchStart registry outOrder).st.colors[i]? = some color → color = .white :=
    fun i color hc => List.eq_of_mem_replicate (List.mem_of_getElem? hc)
  refine ⟨?_, List.nodup_nil, by simp [searchStart], ?_, fun i => ?_, ?_, ?_, by simp [searchStart],
    fun hne => absurd rfl hne, by simp [searchStart], rfl⟩
  · simp [searchStart, serviceRegistryCount]
  · simp [searchStart, List.count_replicate]
  · rw [hline]
    exact iff_of_false (fun hg => by cases hcolor i _ hg) List.not_mem_nil
  · rw [hline]
    exact List.nodup_nil
  · rw [hline]
    exact List.isChain_nil

theorem SearchRuns.inv (hinv : registry.Inv heap) (h : SearchRuns heap registry outOrder x) : x.Inv heap registry := by
  induction h with
  | refl => exact searchStart_inv heap registry outOrder
  | tail _ hx ih => exact searchStep_inv hinv ih hx

/-- What holds of the colours, the buffer and the calls whenever a step has been made. -/
structure Search.Bounded (heap : Heap Service) (registry : ServiceRegistry) (x : Search) : Prop where
  once : x.log.entered.Nodup
  black : x.st.colors.count .black = x.st.outIndex
  gray : x.log.failed = [] → ∀ i : Nat, x.st.colors[i]? = some .gray ↔ ∃ frame ∈ x.path, frame.index = i
  gray_failed : ∀ i : Nat, x.st.colors[i]? = some .gray ↔ (∃ frame ∈ x.path, frame.index = i) ∨ i ∈ x.log.failed
  chain : x.line.IsChain (IndexDependsOn heap registry)
  unwinds : x.log.failed ≠ [] → ∀ y, searchStep heap registry registry.services x = some y →
    y.st = x.st ∧ y.log.entered = x.log.entered ∧ y.log.writes = x.log.writes
  writes : ∀ k ∈ x.log.writes, k < serviceRegistryCount registry
  missing : x.log.missing = false

theorem Search.Inv.unwinds (h : x.Inv heap registry) (hne : x.log.failed ≠ []) {y : Search}
    (hx : searchStep heap registry registry.services x = some y) :
    y.st = x.st ∧ y.log.entered = x.log.entered ∧ y.log.writes = x.log.writes := by
  obtain ⟨roots, path, control, st, log⟩ := x
  rcases h.failed hne with hc | hc <;> simp only at hc <;> subst hc
  · rcases path with _ | ⟨frame, callers⟩
    · simp only [searchStep] at hx
      split at hx <;> cases hx <;> exact ⟨rfl, rfl, rfl⟩
    · simp only [searchStep] at hx
      split at hx <;> cases hx <;> exact ⟨rfl, rfl, rfl⟩
  · cases hx

theorem Search.Inv.bounded (h : x.Inv heap registry) : x.Bounded heap registry := by
  have hgray : ∀ i : Nat, x.st.colors[i]? = some .gray ↔ (∃ frame ∈ x.path, frame.index = i) ∨ i ∈ x.log.failed := by
    intro i
    rw [h.gray]
    unfold Search.line
    rw [List.mem_append, List.mem_reverse, List.mem_map]
  refine ⟨h.entered, h.black, fun hnone i => ?_, hgray, h.chain, fun hne _ hy => h.unwinds hne hy, h.writes, h.missing⟩
  rw [hgray, hnone]
  exact or_iff_left List.not_mem_nil

/-- The search ends with what `service_registry_compute_start_order` returns and leaves behind. -/
theorem searchRuns_done (hinv : registry.Inv heap) (outOrder : Nat → ServicePtr) :
    ∃ x result, SearchRuns heap registry outOrder x ∧ x.control = .done result ∧
      ∀ outCount (host : Host), (serviceRegistryCount registry ≠ 0 → host.allocs.get 0 = true ∧ host.allocs.get 1 = true) →
        ∃ host', serviceRegistryComputeStartOrder heap registry outOrder outCount host =
          some (result, x.st.outOrder, if result = 0 then x.st.outIndex else outCount, host') := by
  obtain ⟨r, st', hvisit, hout⟩ := visitRoots_spec hinv (List.range registry.services.length) _
    (fun i hi => List.mem_range.1 hi) (good_initial outOrder) (fun i => by simp [List.getElem?_replicate])
  obtain ⟨roots', log, hruns⟩ := visitRoots_runs _ _ r st' hvisit ⟨[], [], [], false⟩
  refine ⟨_, r, hruns, rfl, fun outCount host halloc => ?_⟩
  unfold serviceRegistryComputeStartOrder
  by_cases hzero : serviceRegistryCount registry = 0
  · have hnil : registry.services.length = 0 := hzero
    rw [hnil] at hvisit
    cases hvisit
    exact ⟨host, by simp [hzero]⟩
  · have h1 : host.allocs.head = true := (halloc hzero).1
    have h2 : host.allocs.tail.head = true := (halloc hzero).2
    simp only [if_neg hzero, Host.malloc, h1, h2, Bool.true_eq_false, if_false, allServices_eq]
    rw [show serviceRegistryCount registry = registry.services.length from rfl, hvisit]
    rcases hout with ⟨rfl, -⟩ | ⟨rfl, -⟩
    · exact ⟨_, rfl⟩
    · exact ⟨_, rfl⟩

/-- The search ends, and in every state on the way the colours bound what it may enter and write. -/
theorem startOrder_search_bounded (hreg : registry.Reachable heap) (outOrder : Nat → ServicePtr) :
    (WellFounded fun y x => searchStep heap registry registry.services x = some y) ∧
      (∃ x result, SearchRuns heap registry outOrder x ∧ x.control = .done result ∧
        ∀ outCount (host : Host), (serviceRegistryCount registry ≠ 0 → host.allocs.get 0 = true ∧ host.allocs.get 1 = true) →
          ∃ host', serviceRegistryComputeStartOrder heap registry outOrder outCount host =
            some (result, x.st.outOrder, if result = 0 then x.st.outIndex else outCount, host')) ∧
      ∀ x, SearchRuns heap registry outOrder x → x.Bounded heap registry :=
  ⟨searchStep_wellFounded, searchRuns_done hreg.inv outOrder, fun _ h => (h.inv hreg.inv).bounded⟩

end Main

theorem startOrder_search_webAndDb :
    ∃ x, SearchRuns webAndDb webAndDbRegistry (fun _ => 0) x ∧ x.control = .done 0 ∧ x.Bounded webAndDb webAndDbRegistry := by
  obtain ⟨-, ⟨x, result, hx, hdone, hsame⟩, hall⟩ := startOrder_search_bounded webAndDbRegistry_reachable fun _ => 0
  obtain ⟨host', hend⟩ := hsame 7 (.generous [] [] 0) fun _ => ⟨rfl, rfl⟩
  have hzero : (serviceRegistryComputeStartOrder webAndDb webAndDbRegistry (fun _ => 0) 7
      (.generous [] [] 0)).map (fun r => r.1) = some 0 := by decide +kernel
  rw [hend] at hzero
  cases hzero
  exact ⟨x, hx, hdone, hall x hx⟩

/-- A service that depends on a name nobody has registered. -/
def webAlone : Heap Service :=
  (noServices.alloc { serviceCreate "web" with dependencies := ["db"], dependenciesFit := by decide }).2

def webAloneRegistry : ServiceRegistry := (serviceRegistryRegister webAlone serviceRegistryCreate 0).2

/-- When the call for the service has returned -1 nothing is on the path, and the service is still gray. -/
theorem gray_off_the_path_webAlone :
    ¬ ∀ (heap : Heap Service) (registry : ServiceRegistry) (outOrder : Nat → ServicePtr) (x : Search),
      registry.Reachable heap → SearchRuns heap registry outOrder x →
        ∀ i : Nat, x.st.colors[i]? = some .gray ↔ ∃ frame ∈ x.path, frame.index = i := by
  intro h
  have hreg : webAloneRegistry.Reachable webAlone := .register (.create _) 0
  have hruns : SearchRuns webAlone webAloneRegistry (fun _ => 0) _ :=
    .tail (.tail .refl (show searchStep _ _ _ (searchStart webAloneRegistry fun _ => 0) = some _ from rfl)) rfl
  have hgray := (h webAlone webAloneRegistry (fun _ => 0) _ hreg hruns 0).1 rfl
  obtain ⟨frame, hframe, -⟩ := hgray
  cases hframe

end EmblaOs
