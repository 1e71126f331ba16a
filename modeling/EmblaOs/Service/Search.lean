/-
The depth-first search step by step. The nested calls of `service_orchestrator_visit` are run by a
machine with the calls in progress on a stack: a step is one call, one return, or one look at the next
dependency or starting index. It computes what the nested calls compute, it cannot run forever, and in
every state it gets to the colours say which services are on the path, which are written and where the
next one goes.
-/
import EmblaOs.Service.Order
import Mathlib.Data.List.Chain

namespace EmblaOs

open Lib Relation

/-! ## The machine -/

/-- A call in progress: its `index` and the names its loop has still to look at. -/
structure VisitFrame where
  index : Nat
  ahead : List String
  deriving DecidableEq, Repr

inductive SearchControl
  /-- the innermost call, or the loop over the starting indices, goes on -/
  | running
  /-- the innermost call has just returned this value -/
  | returned (result : Int)
  /-- the loop over the starting indices has ended with this result -/
  | done (result : Int)
  deriving DecidableEq, Repr

/-- What has happened so far, latest first. -/
structure SearchLog where
  /-- the services a call was made for -/
  entered : List ServicePtr
  /-- the indices of the calls that returned -1 -/
  failed : List Nat
  /-- the slots of `out_order` written to -/
  writes : List Nat
  /-- was a dependency not found in the service list -/
  missing : Bool

structure Search where
  /-- the starting indices still ahead -/
  roots : List Nat
  /-- the calls in progress, the innermost first -/
  path : List VisitFrame
  control : SearchControl
  st : SortState
  log : SearchLog

/-- The innermost call, for `index`, returns -1. -/
def Search.fail (index : Nat) (callers : List VisitFrame) (x : Search) : Search :=
  { x with path := callers, control := .returned (-1), log := { x.log with failed := index :: x.log.failed } }

/-- The innermost call, for `index`, has been through its loop. -/
def Search.finish (index : Nat) (service : ServicePtr) (callers : List VisitFrame) (x : Search) : Search :=
  { x with
    path := callers
    control := .returned 0
    st := {
      colors := x.st.colors.set index .black
      outOrder := Function.update x.st.outOrder x.st.outIndex service
      outIndex := x.st.outIndex + 1 }
    log := { x.log with writes := x.st.outIndex :: x.log.writes } }

section Machine

variable (heap : Heap Service) (registry : ServiceRegistry) (allServices : List ServicePtr)

/-- The start of `service_orchestrator_visit`. -/
def Search.call (index : Nat) (x : Search) : Search :=
  let service := allServices.getD index 0
  { x with
    path := ⟨index, (heap.read service).dependencies⟩ :: x.path
    control := .running
    st := { x.st with colors := x.st.colors.set index .gray }
    log := { x.log with entered := service :: x.log.entered } }

/-- One round of the loop over the dependency names. -/
def Search.look (index : Nat) (depName : String) (rest : List String) (callers : List VisitFrame) (x : Search) : Search :=
  match serviceRegistryGet heap registry depName with
  | none => x.fail index callers
  | some dep =>
    match serviceOrchestratorFindIndex allServices dep with
    | none => { x with log := { x.log with missing := true } }.fail index callers
    | some depIndex =>
      match x.st.colors[depIndex]? with
      | some .gray => x.fail index callers
      | some .white => { x with path := ⟨index, rest⟩ :: callers }.call heap allServices depIndex
      | _ => { x with path := ⟨index, rest⟩ :: callers }

/-- `none` when the search is over. -/
def searchStep (x : Search) : Option Search :=
  match x.control, x.path with
  | .done _, _ => none
  | .returned result, [] =>
    if result ≠ 0 then some { x with control := .done (-1) } else some { x with control := .running }
  | .returned result, frame :: callers =>
    if result ≠ 0 then some (x.fail frame.index callers) else some { x with control := .running }
  | .running, [] =>
    match x.roots with
    | [] => some { x with control := .done 0 }
    | i :: rest =>
      match x.st.colors[i]? with
      | some .white => some ({ x with roots := rest }.call heap allServices i)
      | _ => some { x with roots := rest }
  | .running, ⟨index, []⟩ :: callers => some (x.finish index (allServices.getD index 0) callers)
  | .running, ⟨index, depName :: rest⟩ :: callers =>
    some (x.look heap registry allServices index depName rest callers)

/-- Any number of steps. -/
abbrev SearchSteps : Search → Search → Prop :=
  ReflTransGen fun x y => searchStep heap registry allServices x = some y

end Machine

/-- The search as `service_registry_compute_start_order` begins it. -/
def searchStart (registry : ServiceRegistry) (outOrder : Nat → ServicePtr) : Search where
  roots := List.range (serviceRegistryCount registry)
  path := []
  control := .running
  st := ⟨List.replicate (serviceRegistryCount registry) .white, outOrder, 0⟩
  log := ⟨[], [], [], false⟩

/-! ## The machine runs the nested calls -/

section Runs

variable {heap : Heap Service} {registry : ServiceRegistry} {allServices : List ServicePtr}

/-- From `x` the machine gets to a state with these parts, whatever its log. -/
def Gets (heap : Heap Service) (registry : ServiceRegistry) (allServices : List ServicePtr) (x : Search)
    (roots : List Nat) (path : List VisitFrame) (control : SearchControl) (st : SortState) : Prop :=
  ∃ log, SearchSteps heap registry allServices x ⟨roots, path, control, st, log⟩

theorem Gets.of_step {x y : Search} {roots : List Nat} {path : List VisitFrame} {control : SearchControl} {st : SortState}
    (hx : searchStep heap registry allServices x = some y) (h : Gets heap registry allServices y roots path control st) :
    Gets heap registry allServices x roots path control st := by
  obtain ⟨log, hy⟩ := h
  exact ⟨log, .head hx hy⟩

/-- What follows a state that is known but for its log. -/
theorem Gets.trans {x : Search} {roots roots' : List Nat} {path path' : List VisitFrame} {control control' : SearchControl}
    {st st' : SortState} (h : Gets heap registry allServices x roots path control st)
    (h' : ∀ log, Gets heap registry allServices ⟨roots, path, control, st, log⟩ roots' path' control' st') :
    Gets heap registry allServices x roots' path' control' st' := by
  obtain ⟨log, hx⟩ := h
  obtain ⟨log', hy⟩ := h' log
  exact ⟨log', hx.trans hy⟩

theorem searchStep_returned_zero (roots : List Nat) (path : List VisitFrame) (st : SortState) (log : SearchLog) :
    searchStep heap registry allServices ⟨roots, path, .returned 0, st, log⟩ = some ⟨roots, path, .running, st, log⟩ := by
  cases path <;> rfl

theorem searchStep_returned_error {result : Int} (hne : result ≠ 0) (roots : List Nat) (frame : VisitFrame)
    (callers : List VisitFrame) (st : SortState) (log : SearchLog) :
    searchStep heap registry allServices ⟨roots, frame :: callers, .returned result, st, log⟩ =
      some ⟨roots, callers, .returned (-1), st, { log with failed := frame.index :: log.failed }⟩ := by
  simp only [searchStep, if_pos hne]
  rfl

/-- A nested call does what `visit` says: it comes back with the same value and the same state. -/
def RunsVisit (heap : Heap Service) (registry : ServiceRegistry) (allServices : List ServicePtr)
    (visit : Nat → SortState → Option (Int × SortState)) : Prop :=
  ∀ index st result st', visit index st = some (result, st') → ∀ roots callers control log,
    Gets heap registry allServices (Search.call heap allServices index ⟨roots, callers, control, st, log⟩)
      roots callers (.returned result) st'

theorem visitDependencies_runs {visit : Nat → SortState → Option (Int × SortState)}
    (hv : RunsVisit heap registry allServices visit) (index : Nat) :
    ∀ (names : List String) (st : SortState) (result : Int) (st' : SortState),
      visitDependencies heap registry allServices visit names st = some (result, st') → ∀ roots callers log,
      Gets heap registry allServices ⟨roots, ⟨index, names⟩ :: callers, .running, st, log⟩ roots
        (if result ≠ 0 then callers else ⟨index, []⟩ :: callers)
        (if result ≠ 0 then .returned (-1) else .running) st'
  | [], st, result, st', hx, roots, callers, log => by
    cases hx
    exact ⟨log, .refl⟩
  | depName :: rest, st, result, st', hx, roots, callers, log => by
    unfold visitDependencies at hx
    refine Gets.of_step (y := Search.look heap registry allServices index depName rest callers
      ⟨roots, ⟨index, depName :: rest⟩ :: callers, .running, st, log⟩) rfl ?_
    unfold Search.look
    cases hget : serviceRegistryGet heap registry depName with
    | none =>
      rw [hget] at hx
      cases hx
      exact ⟨_, .refl⟩
    | some dep =>
      rw [hget] at hx
      simp only at hx ⊢
      cases hf : serviceOrchestratorFindIndex allServices dep with
      | none =>
        rw [hf] at hx
        cases hx
        exact ⟨_, .refl⟩
      | some depIndex =>
        rw [hf] at hx
        simp only at hx ⊢
        rcases hcol : st.colors[depIndex]? with _ | _ | _ | _ <;> rw [hcol] at hx <;> simp only at hx ⊢
        · exact visitDependencies_runs hv index rest st result st' hx roots callers log
        · -- the nested call comes back, and the loop goes on or fails in turn
          cases hcall : visit depIndex st with
          | none =>
            rw [hcall] at hx
            cases hx
          | some answer =>
            obtain ⟨result₁, st₁⟩ := answer
            rw [hcall] at hx
            simp only at hx
            refine (hv depIndex st result₁ st₁ hcall roots (⟨index, rest⟩ :: callers) .running log).trans fun log' => ?_
            by_cases hzero : result₁ = 0
            · subst hzero
              simp only [ne_eq, not_true_eq_false, if_false] at hx
              exact Gets.of_step (searchStep_returned_zero ..)
                (visitDependencies_runs hv index rest st₁ result st' hx roots callers log')
            · rw [if_pos hzero] at hx
              cases hx
              exact Gets.of_step (searchStep_returned_error hzero ..) ⟨_, .refl⟩
        · cases hx
          exact ⟨_, .refl⟩
        · exact visitDependencies_runs hv index rest st result st' hx roots callers log

theorem serviceOrchestratorVisit_runs :
    ∀ depth, RunsVisit heap registry allServices (serviceOrchestratorVisit heap registry allServices depth)
  | 0 => by
    intro index st result st' hx
    cases hx
  | depth + 1 => by
    intro index st result st' hx roots callers control log
    unfold serviceOrchestratorVisit at hx
    simp only at hx
    cases hdeps : visitDependencies heap registry allServices (serviceOrchestratorVisit heap registry allServices depth)
        (heap.read (allServices.getD index 0)).dependencies { st with colors := st.colors.set index .gray } with
    | none =>
      rw [hdeps] at hx
      cases hx
    | some answer =>
      obtain ⟨result₁, st₁⟩ := answer
      rw [hdeps] at hx
      simp only at hx
      have hloop := visitDependencies_runs (serviceOrchestratorVisit_runs depth) index _ _ result₁ st₁ hdeps roots callers
        { log with entered := allServices.getD index 0 :: log.entered }
      by_cases hzero : result₁ = 0
      · subst hzero
        simp only [ne_eq, not_true_eq_false, if_false] at hx hloop
        cases hx
        exact hloop.trans fun log' => Gets.of_step rfl ⟨_, .refl⟩
      · rw [if_pos hzero] at hx
        rw [if_pos hzero, if_pos hzero] at hloop
        cases hx
        exact hloop

/-- The loop over the starting indices. -/
theorem visitRoots_runs {depth : Nat} :
    ∀ (roots : List Nat) (st : SortState) (result : Int) (st' : SortState),
      visitRoots heap registry allServices depth roots st = some (result, st') → ∀ log,
      ∃ roots', Gets heap registry allServices ⟨roots, [], .running, st, log⟩ roots' [] (.done result) st'
  | [], st, result, st', hx, log => by
    cases hx
    exact ⟨[], Gets.of_step rfl ⟨_, .refl⟩⟩
  | i :: rest, st, result, st', hx, log => by
    unfold visitRoots at hx
    rcases hcol : st.colors[i]? with _ | _ | _ | _ <;> rw [hcol] at hx <;> simp only at hx
    · obtain ⟨roots', hrest⟩ := visitRoots_runs rest st result st' hx log
      exact ⟨roots', Gets.of_step (by simp [searchStep, hcol]) hrest⟩
    · cases hcall : serviceOrchestratorVisit heap registry allServices depth i st with
      | none =>
        rw [hcall] at hx
        cases hx
      | some answer =>
        obtain ⟨result₁, st₁⟩ := answer
        rw [hcall] at hx
        simp only at hx
        have hstep : searchStep heap registry allServices ⟨i :: rest, [], .running, st, log⟩ =
            some (Search.call heap allServices i ⟨rest, [], .running, st, log⟩) := by
          simp [searchStep, hcol]
        obtain ⟨log₁, hvisit⟩ := serviceOrchestratorVisit_runs depth i st result₁ st₁ hcall rest [] .running log
        by_cases hzero : result₁ = 0
        · subst hzero
          simp only [ne_eq, not_true_eq_false, if_false] at hx
          obtain ⟨roots', log₂, hrest⟩ := visitRoots_runs rest st₁ result st' hx log₁
          exact ⟨roots', log₂, .head hstep (hvisit.trans (.head (searchStep_returned_zero ..) hrest))⟩
        · rw [if_pos hzero] at hx
          cases hx
          exact ⟨rest, log₁, .head hstep (hvisit.trans (.single (by simp [searchStep, hzero])))⟩
    · obtain ⟨roots', hrest⟩ := visitRoots_runs rest st result st' hx log
      exact ⟨roots', Gets.of_step (by simp [searchStep, hcol]) hrest⟩
    · obtain ⟨roots', hrest⟩ := visitRoots_runs rest st result st' hx log
      exact ⟨roots', Gets.of_step (by simp [searchStep, hcol]) hrest⟩

end Runs

/-! ## The search ends -/

section Ends

variable {heap : Heap Service} {registry : ServiceRegistry} {allServices : List ServicePtr}

def SearchControl.weight : SearchControl → Nat
  | .running => 1
  | .returned _ => 2
  | .done _ => 0

/-- More than the steps that are left: a white service stands for a call with all its dependencies. -/
def Search.weight (x : Search) : Nat :=
  (serviceMaxDependencies + 4) * x.st.colors.count .white + x.roots.length +
    (x.path.map fun frame => frame.ahead.length + 2).sum + x.control.weight

theorem Search.weight_call {x : Search} {index : Nat} (hw : x.st.colors[index]? = some .white) :
    (x.call heap allServices index).weight < x.weight := by
  have hcount := count_set_gray hw
  have hfit := (heap.read (allServices.getD index 0)).dependenciesFit
  simp only [Search.weight, Search.call, List.map_cons, List.sum_cons, SearchControl.weight]
  rw [← hcount, Nat.mul_add]
  omega

theorem Search.weight_fail {x : Search} {frame : VisitFrame} {callers : List VisitFrame} (hpath : x.path = frame :: callers)
    (hcontrol : 1 ≤ x.control.weight) (index : Nat) : (x.fail index callers).weight < x.weight := by
  have htwo : (SearchControl.returned (-1)).weight = 2 := rfl
  simp only [Search.weight, Search.fail, hpath, List.map_cons, List.sum_cons, htwo]
  omega

theorem count_set_black_le (colors : List ServiceSortColor) (index : Nat) :
    (colors.set index .black).count .white ≤ colors.count .white := by
  by_cases hi : index < colors.length
  · rw [List.count_set hi]
    simp
  · rw [List.set_eq_of_length_le (by omega)]

theorem searchStep_weight {x y : Search} (hx : searchStep heap registry allServices x = some y) : y.weight < x.weight := by
  obtain ⟨roots, path, control, st, log⟩ := x
  rcases control with _ | result | result
  · rcases path with _ | ⟨⟨index, _ | ⟨depName, rest⟩⟩, callers⟩
    · -- the next starting index
      rcases roots with _ | ⟨i, roots⟩
      · cases hx
        simp [Search.weight, SearchControl.weight]
      · rcases hcol : st.colors[i]? with _ | _ | _ | _ <;> simp only [searchStep, hcol, Option.some.injEq] at hx <;> subst hx
        · simp [Search.weight]
        · refine (Search.weight_call hcol).trans ?_
          simp [Search.weight]
        · simp [Search.weight]
        · simp [Search.weight]
    · cases hx
      have hle := count_set_black_le st.colors index
      simp only [Search.weight, Search.finish, List.map_cons, List.sum_cons, SearchControl.weight, List.length_nil]
      have := Nat.mul_le_mul_left (serviceMaxDependencies + 4) hle
      omega
    · -- the next dependency
      cases hx
      unfold Search.look
      cases hget : serviceRegistryGet heap registry depName with
      | none => exact Search.weight_fail rfl (by simp [SearchControl.weight]) index
      | some dep =>
        simp only
        cases hf : serviceOrchestratorFindIndex allServices dep with
        | none => exact Search.weight_fail rfl (by simp [SearchControl.weight]) index
        | some depIndex =>
          rcases hcol : st.colors[depIndex]? with _ | _ | _ | _ <;> simp only [hcol]
          · simp [Search.weight]
          · refine (Search.weight_call hcol).trans ?_
            simp [Search.weight]
          · exact Search.weight_fail rfl (by simp [SearchControl.weight]) index
          · simp [Search.weight]
  · rcases path with _ | ⟨frame, callers⟩
    · simp only [searchStep] at hx
      split at hx <;> cases hx <;> simp [Search.weight, SearchControl.weight]
    · simp only [searchStep] at hx
      split at hx <;> cases hx
      · exact Search.weight_fail rfl (by simp [SearchControl.weight]) frame.index
      · simp [Search.weight, SearchControl.weight]
  · cases hx

/-- No search goes on forever, whatever the colours and the stack it starts from. -/
theorem searchStep_wellFounded : WellFounded fun y x => searchStep heap registry allServices x = some y :=
  Subrelation.wf (fun hx => searchStep_weight hx) (measure Search.weight).wf

end Ends

end EmblaOs
