/-
The start order (service_orchestrator.c): a depth-first search over the declared dependencies with
the usual three colours, writing each service into the caller's buffer once all it depends on has
been written. The search ends after at most one nested call per service; it succeeds exactly when
every dependency is registered and none depends on itself, and then the buffer holds every service
once, each behind everything it depends on.
-/
import EmblaOs.Service.Registry
import EmblaOs.Lib.Topological

namespace EmblaOs

open Lib Lib.Topological Relation

inductive ServiceSortColor
  | white
  | gray
  | black
  deriving DecidableEq, Repr

def serviceOrchestratorFindIndex (allServices : List ServicePtr) (target : ServicePtr) : Option Nat :=
  allServices.findIdx? fun service => service = target

/-- What the nested calls share: the colours, the memory behind `out_order` and `*out_index`. -/
structure SortState where
  colors : List ServiceSortColor
  outOrder : Nat → ServicePtr
  outIndex : Nat

section Search

variable (heap : Heap Service) (registry : ServiceRegistry) (allServices : List ServicePtr)

/-- The loop over the dependency names, `visit` being the recursive call. -/
def visitDependencies (visit : Nat → SortState → Option (Int × SortState)) :
    List String → SortState → Option (Int × SortState)
  | [], st => some (0, st)
  | depName :: rest, st =>
    match serviceRegistryGet heap registry depName with
    | none => some (-1, st)
    | some dep =>
      match serviceOrchestratorFindIndex allServices dep with
      | none => some (-1, st)
      | some depIndex =>
        match st.colors[depIndex]? with
        | some .gray => some (-1, st)
        | some .white =>
          match visit depIndex st with
          | none => none
          | some (result, st) => if result ≠ 0 then some (-1, st) else visitDependencies visit rest st
        | _ => visitDependencies visit rest st

/-- `none` when the calls nest deeper than `depth`. -/
def serviceOrchestratorVisit : Nat → Nat → SortState → Option (Int × SortState)
  | 0, _, _ => none
  | depth + 1, index, st =>
    let service := allServices.getD index 0
    let st := { st with colors := st.colors.set index .gray }
    match visitDependencies heap registry allServices (serviceOrchestratorVisit depth)
        (heap.read service).dependencies st with
    | none => none
    | some (result, st) =>
      if result ≠ 0 then some (-1, st)
      else
        some (0, {
          colors := st.colors.set index .black
          outOrder := Function.update st.outOrder st.outIndex service
          outIndex := st.outIndex + 1 })

/-- The loop of `service_registry_compute_start_order` over the starting indices. -/
def visitRoots (depth : Nat) : List Nat → SortState → Option (Int × SortState)
  | [], st => some (0, st)
  | i :: rest, st =>
    match st.colors[i]? with
    | some .white =>
      match serviceOrchestratorVisit heap registry allServices depth i st with
      | none => none
      | some (result, st) => if result ≠ 0 then some (-1, st) else visitRoots depth rest st
    | _ => visitRoots depth rest st

/-- The return value, the memory behind `out_order`, `*out_count` and the host after the call. -/
def serviceRegistryComputeStartOrder (outOrder : Nat → ServicePtr) (outCount : Nat) (host : Host) :
    Option (Int × (Nat → ServicePtr) × Nat × Host) :=
  let count := serviceRegistryCount registry
  if count = 0 then some (0, outOrder, 0, host)
  else
    let (services, host) := host.malloc
    if services = false then some (-1, outOrder, outCount, host)
    else
      let (colors, host) := host.malloc
      if colors = false then some (-1, outOrder, outCount, host)
      else
        let allServices := (List.range count).filterMap (serviceRegistryGetAt registry)
        match visitRoots heap registry allServices count (List.range count)
            ⟨List.replicate count .white, outOrder, 0⟩ with
        | none => none
        | some (result, st) =>
          if result ≠ 0 then some (-1, st.outOrder, outCount, host) else some (0, st.outOrder, st.outIndex, host)

/-! ## What is to be computed -/

/-- `s` names `d` among its dependencies, both being registered. -/
def DependsOn (s d : ServicePtr) : Prop :=
  s ∈ registry.services ∧ d ∈ registry.services ∧ (heap.read d).name ∈ (heap.read s).dependencies

/-- Every dependency name is the name of a registered service. -/
def DependenciesRegistered : Prop :=
  ∀ s ∈ registry.services, ∀ name ∈ (heap.read s).dependencies, ∃ d ∈ registry.services, (heap.read d).name = name

def DependenciesAcyclic : Prop := ∀ s, ¬ TransGen (DependsOn heap registry) s s

end Search

theorem dependencies_of_empty {heap : Heap Service} {registry : ServiceRegistry} (hnil : registry.services = []) :
    DependenciesRegistered heap registry ∧ DependenciesAcyclic heap registry := by
  have hno : ∀ s, s ∉ registry.services := by
    rw [hnil]
    exact fun _ => List.not_mem_nil
  refine ⟨fun s hs => absurd hs (hno s), fun s hcycle => ?_⟩
  obtain ⟨_, hedge, -⟩ := (TransGen.head'_iff).1 hcycle
  exact hno s hedge.1

/-- The services written so far. -/
def SortState.written (st : SortState) : List ServicePtr := (List.range st.outIndex).map st.outOrder

theorem SortState.written_push (st : SortState) (colors : List ServiceSortColor) (s : ServicePtr) :
    (SortState.mk colors (Function.update st.outOrder st.outIndex s) (st.outIndex + 1)).written =
      st.written ++ [s] := by
  unfold SortState.written
  rw [List.range_succ, List.map_append]
  congr 1
  · apply List.map_congr_left
    intro i hi
    exact Function.update_of_ne (List.mem_range.1 hi).ne _ _
  · simp

section Invariant

variable (heap : Heap Service) (registry : ServiceRegistry)

/-- The black services are the ones written, once each and each behind its dependencies. -/
structure SortState.Good (st : SortState) : Prop where
  size : st.colors.length = registry.services.length
  nodup : st.written.Nodup
  black : ∀ (i : Nat) s, registry.services[i]? = some s → (s ∈ st.written ↔ st.colors[i]? = some ServiceSortColor.black)
  known : ∀ s ∈ st.written, s ∈ registry.services
  resolved : ∀ s ∈ st.written, ∀ name ∈ (heap.read s).dependencies, ∃ d ∈ registry.services, (heap.read d).name = name
  respects : Respects (DependsOn heap registry) st.written

/-- What a successful call leaves alone: nothing written is lost, the gray ones stay the same. -/
structure SortState.Ext (st st' : SortState) : Prop where
  written : ∀ s ∈ st.written, s ∈ st'.written
  gray : ∀ i : Nat, st'.colors[i]? = some ServiceSortColor.gray ↔ st.colors[i]? = some ServiceSortColor.gray
  white : st'.colors.count .white ≤ st.colors.count .white

end Invariant

theorem SortState.Ext.refl (st : SortState) : SortState.Ext st st := ⟨fun _ h => h, fun _ => Iff.rfl, le_refl _⟩

theorem SortState.Ext.trans {a b c : SortState} (h : SortState.Ext a b) (h' : SortState.Ext b c) :
    SortState.Ext a c :=
  ⟨fun s hs => h'.written s (h.written s hs), fun i => (h'.gray i).trans (h.gray i), h'.white.trans h.white⟩

/-! ## The search -/

section Spec

variable {heap : Heap Service} {registry : ServiceRegistry}

theorem serviceOrchestratorFindIndex_mem {s : ServicePtr} (hs : s ∈ registry.services) :
    ∃ index, serviceOrchestratorFindIndex registry.services s = some index ∧ registry.services[index]? = some s := by
  unfold serviceOrchestratorFindIndex
  cases hf : registry.services.findIdx? (fun service => decide (service = s)) with
  | none =>
    rw [List.findIdx?_eq_none_iff] at hf
    have := hf s hs
    simp at this
  | some index =>
    obtain ⟨hi, heq, -⟩ := List.findIdx?_eq_some_iff_getElem.1 hf
    exact ⟨index, rfl, by simpa [List.getElem?_eq_getElem hi] using heq⟩

variable (hinv : registry.Inv heap)

include hinv

theorem index_unique {i j : Nat} {s : ServicePtr} (hi : registry.services[i]? = some s)
    (hj : registry.services[j]? = some s) : i = j := by
  obtain ⟨hi', hi⟩ := List.getElem?_eq_some_iff.1 hi
  obtain ⟨hj', hj⟩ := List.getElem?_eq_some_iff.1 hj
  exact (List.Nodup.getElem_inj_iff hinv.nodup).1 (hi.trans hj.symm)

omit hinv in
/-- Painting a white service gray keeps what is known about the black ones. -/
theorem SortState.Good.enter {st : SortState} (h : st.Good heap registry) {index : Nat}
    (hw : st.colors[index]? = some .white) :
    SortState.Good heap registry { st with colors := st.colors.set index .gray } := by
  refine ⟨by simpa using h.size, h.nodup, fun i s hs => ?_, h.known, h.resolved, h.respects⟩
  rw [show SortState.written { st with colors := st.colors.set index .gray } = st.written from rfl, h.black i s hs]
  rcases eq_or_ne index i with rfl | hne
  · rw [hw, List.getElem?_set_self (List.getElem?_eq_some_iff.1 hw).1]
    simp
  · simp only [List.getElem?_set_ne hne]

omit hinv in
theorem count_set_gray {colors : List ServiceSortColor} {index : Nat} (hw : colors[index]? = some .white) :
    (colors.set index .gray).count .white + 1 = colors.count .white := by
  obtain ⟨hi, hw⟩ := List.getElem?_eq_some_iff.1 hw
  have hpos : 0 < colors.count .white := List.count_pos_iff.2 (hw ▸ List.getElem_mem hi)
  rw [List.count_set hi, hw]
  simp
  omega

/-- Writing the current service after all its dependencies. -/
theorem SortState.Good.finish {st : SortState} (h : st.Good heap registry) {index : Nat} {s : ServicePtr}
    (hs : registry.services[index]? = some s) (hg : st.colors[index]? = some .gray)
    (hdeps : ∀ name ∈ (heap.read s).dependencies, ∃ d ∈ st.written, (heap.read d).name = name) :
    SortState.Good heap registry ⟨st.colors.set index .black, Function.update st.outOrder st.outIndex s, st.outIndex + 1⟩ := by
  have hmem : s ∈ registry.services := List.mem_of_getElem? hs
  -- a service is written once, when it turns black
  have hnot : s ∉ st.written := by
    rw [h.black index s hs, hg]
    simp
  refine ⟨by simpa using h.size, ?_, fun i t ht => ?_, ?_, ?_, ?_⟩ <;> rw [SortState.written_push]
  · exact List.nodup_append.2 ⟨h.nodup, List.nodup_singleton _, by rintro a ha b hb rfl; exact hnot (List.mem_singleton.1 hb ▸ ha)⟩
  · rw [List.mem_append, List.mem_singleton, h.black i t ht]
    rcases eq_or_ne index i with rfl | hne
    · rw [List.getElem?_set_self (List.getElem?_eq_some_iff.1 hg).1]
      simp [Option.some.inj (ht.symm.trans hs)]
    · simp only [List.getElem?_set_ne hne]
      refine ⟨fun h => h.resolve_right ?_, .inl⟩
      rintro rfl
      exact hne (index_unique hinv hs ht)
  · intro t ht
    rcases List.mem_append.1 ht with ht | ht
    · exact h.known t ht
    · rw [List.mem_singleton.1 ht]
      exact hmem
  · intro t ht
    rcases List.mem_append.1 ht with ht | ht
    · exact h.resolved t ht
    · rw [List.mem_singleton.1 ht]
      intro name hname
      obtain ⟨d, hd, hdn⟩ := hdeps name hname
      exact ⟨d, h.known d hd, hdn⟩
  · refine h.respects.snoc fun d hd => ?_
    obtain ⟨d', hd', hname⟩ := hdeps _ hd.2.2
    rwa [← hinv.name_inj (h.known d' hd') hd.2.1 hname]

/-- A part of the search either succeeds, keeping the invariant and reaching `goal`, or fails with -1
because no order exists. -/
def SearchOutcome (heap : Heap Service) (registry : ServiceRegistry) (st : SortState) (goal : SortState → Prop)
    (outcome : Option (Int × SortState)) : Prop :=
  ∃ result st', outcome = some (result, st') ∧
    ((result = 0 ∧ st'.Good heap registry ∧ st.Ext st' ∧ goal st') ∨
      (result = -1 ∧ ¬ (DependenciesRegistered heap registry ∧ DependenciesAcyclic heap registry)))

/-- The contract of a visit while at most `bound` services are white: from a white service that all
gray ones depend on. -/
def VisitSpec (heap : Heap Service) (registry : ServiceRegistry) (bound : Nat)
    (visit : Nat → SortState → Option (Int × SortState)) : Prop :=
  ∀ index s st, registry.services[index]? = some s → st.colors[index]? = some .white → st.Good heap registry →
    st.colors.count .white ≤ bound →
    (∀ (i : Nat) g, registry.services[i]? = some g → st.colors[i]? = some .gray →
      TransGen (DependsOn heap registry) g s) →
    SearchOutcome heap registry st (fun st' => s ∈ st'.written) (visit index st)

theorem visitDependencies_spec {bound : Nat} {visit : Nat → SortState → Option (Int × SortState)}
    (hv : VisitSpec heap registry bound visit) {s : ServicePtr} (hs : s ∈ registry.services) :
    ∀ (names : List String) (st : SortState), (∀ name ∈ names, name ∈ (heap.read s).dependencies) →
      st.Good heap registry → st.colors.count .white ≤ bound →
      (∀ (i : Nat) g, registry.services[i]? = some g → st.colors[i]? = some .gray →
        ReflTransGen (DependsOn heap registry) g s) →
      SearchOutcome heap registry st (fun st' => ∀ name ∈ names, ∃ d ∈ st'.written, (heap.read d).name = name)
        (visitDependencies heap registry registry.services visit names st)
  | [], st, _, hgood, _, _ => ⟨0, st, rfl, .inl ⟨rfl, hgood, .refl st, by simp⟩⟩
  | depName :: rest, st, hnames, hgood, hbound, hgray => by
    unfold visitDependencies
    cases hget : serviceRegistryGet heap registry depName with
    | none =>
      refine ⟨-1, st, rfl, .inr ⟨rfl, fun hok => ?_⟩⟩
      obtain ⟨d, hd, hname⟩ := hok.1 s hs depName (hnames _ List.mem_cons_self)
      exact ServiceRegistry.get_none.1 hget d hd hname
    | some dep =>
      obtain ⟨hdep, hname⟩ := hinv.get_iff.1 hget
      have hedge : DependsOn heap registry s dep := ⟨hs, hdep, hname ▸ hnames _ List.mem_cons_self⟩
      obtain ⟨index, hf, hidx⟩ := serviceOrchestratorFindIndex_mem hdep
      -- once the dependency is written the rest of the loop decides
      have hrest : ∀ st1, st1.Good heap registry → st.Ext st1 → dep ∈ st1.written →
          SearchOutcome heap registry st
            (fun st' => ∀ name ∈ depName :: rest, ∃ d ∈ st'.written, (heap.read d).name = name)
            (visitDependencies heap registry registry.services visit rest st1) := by
        intro st1 hgood1 hext hwritten
        obtain ⟨r, st', hx, hout⟩ := visitDependencies_spec hv hs rest st1
          (fun name hn => hnames name (List.mem_cons_of_mem _ hn)) hgood1 (hext.white.trans hbound)
          fun i g hi hg => hgray i g hi ((hext.gray i).1 hg)
        refine ⟨r, st', hx, hout.imp_left ?_⟩
        rintro ⟨h1, h2, h3, h4⟩
        refine ⟨h1, h2, hext.trans h3, fun name hn => ?_⟩
        rcases List.mem_cons.1 hn with rfl | hn
        · exact ⟨dep, h3.written dep hwritten, hname⟩
        · exact h4 name hn
      simp only [hf]
      rcases hcol : st.colors[index]? with _ | _ | _ | _
      · -- every service has a colour
        have hlt := (List.getElem?_eq_some_iff.1 hidx).1
        rw [← hgood.size] at hlt
        rw [List.getElem?_eq_getElem hlt] at hcol
        cases hcol
      · have hreach : ∀ (i : Nat) g, registry.services[i]? = some g → st.colors[i]? = some .gray →
            TransGen (DependsOn heap registry) g dep := fun i g hi hg => .tail' (hgray i g hi hg) hedge
        obtain ⟨r, st1, hx, hout⟩ := hv index dep st hidx hcol hgood hbound hreach
        simp only [hx]
        rcases hout with ⟨h1, h2, h3, h4⟩ | ⟨h1, h2⟩
        · subst h1
          simp only [ne_eq, not_true_eq_false, if_false]
          exact hrest st1 h2 h3 h4
        · subst h1
          exact ⟨-1, st1, by simp, .inr ⟨rfl, h2⟩⟩
      · -- a gray dependency depends on the current service in turn
        refine ⟨-1, st, rfl, .inr ⟨rfl, fun hok => ?_⟩⟩
        exact hok.2 s (.head' hedge (hgray index dep hidx hcol))
      · exact hrest st hgood (.refl st) ((hgood.black index dep hidx).2 hcol)

theorem serviceOrchestratorVisit_spec :
    ∀ depth, VisitSpec heap registry depth (serviceOrchestratorVisit heap registry registry.services depth)
  | 0 => by
    intro index s st _ hw _ hbound
    have hpos : 0 < st.colors.count .white :=
      List.count_pos_iff.2 (List.mem_of_getElem? hw)
    omega
  | depth + 1 => by
    intro index s st hs hw hgood hbound hgray
    have hmem : s ∈ registry.services := List.mem_of_getElem? hs
    have hgetD : registry.services.getD index 0 = s := by rw [List.getD_eq_getElem?_getD, hs]; rfl
    have hlt : index < st.colors.length := (List.getElem?_eq_some_iff.1 hw).1
    -- one white service less, so the depth still bounds them below `s`
    have hcount := count_set_gray hw
    unfold serviceOrchestratorVisit
    simp only [hgetD]
    obtain ⟨r, st', hx, hout⟩ := visitDependencies_spec hinv (serviceOrchestratorVisit_spec depth) hmem
      (heap.read s).dependencies { st with colors := st.colors.set index .gray } (fun _ h => h) (hgood.enter hw)
      (by simp only; omega) (fun i g hi hg => by
        rcases eq_or_ne index i with rfl | hne
        · rw [Option.some.inj (hi.symm.trans hs)]
        · simp only [List.getElem?_set_ne hne] at hg
          exact (hgray i g hi hg).to_reflTransGen)
    rw [hx]
    rcases hout with ⟨rfl, hgood', hext, hdeps⟩ | ⟨rfl, hno⟩
    · -- the search below has left `s` gray; it turns black and is written
      have hg : st'.colors[index]? = some .gray := (hext.gray index).2 (by simp [hlt])
      have hlt' : index < st'.colors.length := (List.getElem?_eq_some_iff.1 hg).1
      simp only [ne_eq, not_true_eq_false, if_false]
      refine ⟨0, _, rfl, .inl ⟨rfl, hgood'.finish hinv hs hg hdeps, ⟨fun t ht => ?_, fun i => ?_, ?_⟩, ?_⟩⟩
      · rw [SortState.written_push]
        exact List.mem_append_left _ (hext.written t ht)
      · rcases eq_or_ne index i with rfl | hne
        · simp [hlt', hw]
        · have := hext.gray i
          simp only [List.getElem?_set_ne hne] at this ⊢
          exact this
      · have hw' := hext.white
        have hset : (st'.colors.set index .black).count ServiceSortColor.white = st'.colors.count .white := by
          rw [List.count_set hlt', (List.getElem?_eq_some_iff.1 hg).2]
          simp
        simp only at hw' ⊢
        omega
      · show s ∈ SortState.written _
        rw [SortState.written_push]
        simp
    · exact ⟨-1, st', by simp, .inr ⟨rfl, hno⟩⟩

/-- From outside the search no service is gray, so every root may be visited. -/
theorem visitRoots_spec :
    ∀ (roots : List Nat) (st : SortState), (∀ i ∈ roots, i < registry.services.length) → st.Good heap registry →
      (∀ i : Nat, st.colors[i]? ≠ some .gray) →
      SearchOutcome heap registry st (fun st' => ∀ i ∈ roots, ∀ s, registry.services[i]? = some s → s ∈ st'.written)
        (visitRoots heap registry registry.services registry.services.length roots st)
  | [], st, _, hgood, _ => ⟨0, st, rfl, .inl ⟨rfl, hgood, .refl st, by simp⟩⟩
  | i :: rest, st, hroots, hgood, hgray => by
    have hi : i < registry.services.length := hroots i List.mem_cons_self
    have hs : registry.services[i]? = some registry.services[i] := List.getElem?_eq_getElem hi
    have hrest : ∀ st1, st1.Good heap registry → st.Ext st1 → registry.services[i] ∈ st1.written →
        SearchOutcome heap registry st
          (fun st' => ∀ j ∈ i :: rest, ∀ s, registry.services[j]? = some s → s ∈ st'.written)
          (visitRoots heap registry registry.services registry.services.length rest st1) := by
      intro st1 hgood1 hext hwritten
      obtain ⟨r, st', hx, hout⟩ := visitRoots_spec rest st1 (fun j hj => hroots j (List.mem_cons_of_mem _ hj)) hgood1
        fun j hj => hgray j ((hext.gray j).1 hj)
      refine ⟨r, st', hx, hout.imp_left ?_⟩
      rintro ⟨h1, h2, h3, h4⟩
      refine ⟨h1, h2, hext.trans h3, fun j hj s hs' => ?_⟩
      rcases List.mem_cons.1 hj with rfl | hj
      · rw [Option.some.inj (hs'.symm.trans hs)]
        exact h3.written _ hwritten
      · exact h4 j hj s hs'
    -- between two roots no service is gray, so a root is new or done
    unfold visitRoots
    rcases hcol : st.colors[i]? with _ | _ | _ | _
    · rw [List.getElem?_eq_none_iff, hgood.size] at hcol
      omega
    · have hbound : st.colors.count .white ≤ registry.services.length := by
        rw [← hgood.size]
        exact List.count_le_length
      obtain ⟨r, st1, hx, hout⟩ := serviceOrchestratorVisit_spec hinv _ i _ st hs hcol hgood hbound
        fun j g _ hg => absurd hg (hgray j)
      simp only [hx]
      rcases hout with ⟨rfl, h2, h3, h4⟩ | ⟨rfl, h2⟩
      · simp only [ne_eq, not_true_eq_false, if_false]
        exact hrest st1 h2 h3 h4
      · exact ⟨-1, st1, by simp, .inr ⟨rfl, h2⟩⟩
    · exact absurd hcol (hgray i)
    · exact hrest st hgood (.refl st) ((hgood.black i _ hs).2 hcol)

omit hinv in
theorem good_initial (outOrder : Nat → ServicePtr) :
    SortState.Good heap registry ⟨List.replicate registry.services.length .white, outOrder, 0⟩ := by
  have hnil : SortState.written ⟨List.replicate registry.services.length .white, outOrder, 0⟩ = [] := rfl
  refine ⟨by simp, ?_, fun i s hs => ?_, ?_, ?_, ?_⟩ <;> rw [hnil]
  · exact List.nodup_nil
  · simp [List.getElem?_replicate]
  · simp
  · simp
  · exact respects_nil

omit hinv in
theorem allServices_eq :
    (List.range (serviceRegistryCount registry)).filterMap (serviceRegistryGetAt registry) = registry.services := by
  unfold serviceRegistryCount
  have hget : ∀ i ∈ List.range registry.services.length,
      serviceRegistryGetAt registry i = some (registry.services.getD i 0) := by
    intro i hi
    have hlt := List.mem_range.1 hi
    unfold serviceRegistryGetAt
    rw [if_neg (by omega), List.getD_eq_getElem?_getD, List.getElem?_eq_getElem hlt]
    rfl
  rw [List.filterMap_congr hget, List.filterMap_eq_map']
  apply List.ext_getElem
  · simp
  · intro i h1 h2
    simp [List.getElem?_eq_getElem h2]

/-- The written services of a state that satisfies the invariant and contains every service. -/
theorem SortState.Good.complete {st : SortState} (h : st.Good heap registry)
    (hall : ∀ s ∈ registry.services, s ∈ st.written) :
    st.written.Perm registry.services ∧ DependenciesRegistered heap registry ∧ DependenciesAcyclic heap registry := by
  refine ⟨(List.perm_ext_iff_of_nodup h.nodup hinv.nodup).2 fun s => ⟨h.known s, hall s⟩,
    fun s hs => h.resolved s (hall s hs), fun s hcycle => ?_⟩
  have hs : s ∈ registry.services := by
    obtain ⟨_, hedge, -⟩ := (TransGen.head'_iff).1 hcycle
    exact hedge.1
  exact h.respects.acyclic h.nodup (hall s hs) hcycle

/-- The one description of `service_registry_compute_start_order`: with memory for its two arrays it
returns, and either the buffer holds an order or there is none and `*out_count` is as before. -/
theorem computeStartOrder_spec (outOrder : Nat → ServicePtr) (outCount : Nat) {host : Host}
    (halloc : serviceRegistryCount registry ≠ 0 → host.allocs.get 0 = true ∧ host.allocs.get 1 = true) :
    ∃ result out count host', serviceRegistryComputeStartOrder heap registry outOrder outCount host =
        some (result, out, count, host') ∧
      ((result = 0 ∧ count = serviceRegistryCount registry ∧
          ((List.range count).map out).Perm registry.services ∧
          Respects (DependsOn heap registry) ((List.range count).map out) ∧
          DependenciesRegistered heap registry ∧ DependenciesAcyclic heap registry) ∨
        (result = -1 ∧ count = outCount ∧
          ¬ (DependenciesRegistered heap registry ∧ DependenciesAcyclic heap registry))) := by
  unfold serviceRegistryComputeStartOrder
  by_cases hzero : serviceRegistryCount registry = 0
  · have hnil : registry.services = [] := List.length_eq_zero_iff.1 hzero
    exact ⟨0, outOrder, 0, host, by simp [hzero],
      .inl ⟨rfl, hzero.symm, by simp [hnil], respects_nil, dependencies_of_empty hnil⟩⟩
  · have h1 : host.allocs.head = true := (halloc hzero).1
    have h2 : host.allocs.tail.head = true := (halloc hzero).2
    simp only [if_neg hzero, Host.malloc, h1, h2, Bool.true_eq_false, if_false, allServices_eq]
    obtain ⟨r, st', hx, hout⟩ := visitRoots_spec hinv (List.range registry.services.length) _
      (fun i hi => List.mem_range.1 hi) (good_initial outOrder) (fun i => by simp [List.getElem?_replicate])
    rw [show serviceRegistryCount registry = registry.services.length from rfl, hx]
    rcases hout with ⟨rfl, hgood, -, hall⟩ | ⟨rfl, hno⟩
    · have hmem : ∀ s ∈ registry.services, s ∈ st'.written := by
        intro s hs
        obtain ⟨i, hi, rfl⟩ := List.getElem_of_mem hs
        exact hall i (List.mem_range.2 hi) _ (List.getElem?_eq_getElem hi)
      obtain ⟨hperm, hreg, hacyc⟩ := hgood.complete hinv hmem
      refine ⟨0, st'.outOrder, st'.outIndex, _, rfl, .inl ⟨rfl, ?_, hperm, hgood.respects, hreg, hacyc⟩⟩
      have := hperm.length_eq
      simpa [SortState.written] using this
    · exact ⟨-1, st'.outOrder, outCount, _, rfl, .inr ⟨rfl, rfl, hno⟩⟩

end Spec

/-! ## The start order -/

section Main

variable {heap : Heap Service} {registry : ServiceRegistry} (hreg : registry.Reachable heap) {host : Host}

include hreg

/-- The call succeeds exactly when all dependencies are registered and there is no cycle; otherwise
it returns -1 and `*out_count` keeps its value. -/
theorem computeStartOrder_succeeds_iff (halloc : host.allocs.get 0 = true ∧ host.allocs.get 1 = true)
    (outOrder : Nat → ServicePtr) (outCount : Nat) :
    ∃ result out count host', serviceRegistryComputeStartOrder heap registry outOrder outCount host =
        some (result, out, count, host') ∧
      (result = 0 ↔ DependenciesRegistered heap registry ∧ DependenciesAcyclic heap registry) ∧
      (¬ (DependenciesRegistered heap registry ∧ DependenciesAcyclic heap registry) →
        result = -1 ∧ count = outCount) := by
  obtain ⟨result, out, count, host', hx, hout⟩ := computeStartOrder_spec hreg.inv outOrder outCount fun _ => halloc
  refine ⟨result, out, count, host', hx, ?_⟩
  rcases hout with ⟨rfl, -, -, -, hok⟩ | ⟨rfl, rfl, hno⟩
  · exact ⟨⟨fun _ => hok, fun _ => rfl⟩, fun hno => absurd hok hno⟩
  · exact ⟨⟨fun hc => absurd hc (by decide), fun hok => absurd hok hno⟩, fun _ => ⟨rfl, rfl⟩⟩

/-- After a successful call the buffer starts with every registered service once, each behind all it
depends on, directly or not. -/
theorem computeStartOrder_order {outOrder out : Nat → ServicePtr} {outCount count : Nat} {host' : Host}
    (hx : serviceRegistryComputeStartOrder heap registry outOrder outCount host = some (0, out, count, host')) :
    count = serviceRegistryCount registry ∧ ((List.range count).map out).Nodup ∧
      ((List.range count).map out).Perm registry.services ∧
      (∀ s ∈ registry.services, ∀ name ∈ (heap.read s).dependencies, ∃ d ∈ registry.services,
        (heap.read d).name = name ∧ ((List.range count).map out).idxOf d < ((List.range count).map out).idxOf s) ∧
      ∀ s d, TransGen (DependsOn heap registry) s d →
        ((List.range count).map out).idxOf d < ((List.range count).map out).idxOf s := by
  -- an order came out, so both arrays were allocated
  have halloc : serviceRegistryCount registry ≠ 0 → host.allocs.get 0 = true ∧ host.allocs.get 1 = true := by
    intro hzero
    unfold serviceRegistryComputeStartOrder at hx
    simp only [if_neg hzero, Host.malloc] at hx
    by_cases h1 : host.allocs.head = false
    · simp [h1] at hx
    by_cases h2 : host.allocs.tail.head = false
    · simp [h1, h2] at hx
    exact ⟨by simpa using h1, by simpa using h2⟩
  obtain ⟨result, out', count', host'', hx', hout⟩ := computeStartOrder_spec hreg.inv outOrder outCount halloc
  rw [hx'] at hx
  cases hx
  rcases hout with ⟨-, hcount, hperm, hresp, hdeps, -⟩ | ⟨hc, -⟩
  · have hnodup : ((List.range count).map out).Nodup := hperm.nodup_iff.2 hreg.inv.nodup
    have hlt : ∀ s d, TransGen (DependsOn heap registry) s d →
        ((List.range count).map out).idxOf d < ((List.range count).map out).idxOf s := by
      intro s d hsd
      obtain ⟨_, hedge, -⟩ := (TransGen.head'_iff).1 hsd
      exact hresp.idxOf_lt hnodup (hperm.mem_iff.2 hedge.1) hsd
    refine ⟨hcount, hnodup, hperm, fun s hs name hname => ?_, hlt⟩
    obtain ⟨d, hd, hdn⟩ := hdeps s hs name hname
    exact ⟨d, hd, hdn, hlt s d (.single ⟨hs, hd, hdn ▸ hname⟩)⟩
  · cases hc

end Main

/-- A web service that names its database twice, then the database. -/
def webAndDb : Heap Service :=
  ((noServices.alloc { serviceCreate "web" with
    dependencies := ["db", "db"], dependenciesFit := by decide }).2.alloc (serviceCreate "db")).2

def webAndDbRegistry : ServiceRegistry :=
  (serviceRegistryRegister webAndDb (serviceRegistryRegister webAndDb serviceRegistryCreate 0).2 1).2

theorem webAndDbRegistry_reachable : webAndDbRegistry.Reachable webAndDb :=
  .register (.register (.create _) 0) 1

theorem computeStartOrder_succeeds_webAndDb :
    ∃ result out count host', serviceRegistryComputeStartOrder webAndDb webAndDbRegistry (fun _ => 0) 7
        (.generous [] [] 0) = some (result, out, count, host') ∧
      (result = 0 ↔ DependenciesRegistered webAndDb webAndDbRegistry ∧ DependenciesAcyclic webAndDb webAndDbRegistry) ∧
      (¬ (DependenciesRegistered webAndDb webAndDbRegistry ∧ DependenciesAcyclic webAndDb webAndDbRegistry) →
        result = -1 ∧ count = 7) :=
  computeStartOrder_succeeds_iff webAndDbRegistry_reachable ⟨rfl, rfl⟩ (fun _ => 0) 7

theorem computeStartOrder_order_webAndDb :
    ∃ out host', serviceRegistryComputeStartOrder webAndDb webAndDbRegistry (fun _ => 0) 7 (.generous [] [] 0) =
        some (0, out, 2, host') ∧
      ((List.range 2).map out).Perm webAndDbRegistry.services := by
  have h0 : (serviceRegistryComputeStartOrder webAndDb webAndDbRegistry (fun _ => 0) 7
      (.generous [] [] 0)).map (fun r => (r.1, r.2.2.1)) = some (0, 2) := by decide +kernel
  obtain ⟨⟨result, out, count, host'⟩, hx, hr⟩ := Option.map_eq_some_iff.1 h0
  cases hr
  exact ⟨out, host', hx, (computeStartOrder_order webAndDbRegistry_reachable hx).2.2.1⟩

end EmblaOs
