/-
Declared dependencies read back. The count is an `int` and the index a `size_t` that is cut to an `int`
for the comparison, so an index from 2^31 on may pass as a small or a negative one: such a read goes
outside the stored entries. Below 2^31, and wherever the low half of the index is a large positive
`int`, the read is right.
-/
import EmblaOs.Service.Basic
import EmblaOs.Lib.Runs

namespace EmblaOs

open Lib

/-! ## One call -/

theorem serviceAddDependency_refused {service : Service} {name : String} {host : Host}
    (h : name = service.name ∨ service.dependencies.length ≥ serviceMaxDependencies) :
    serviceAddDependency service name host = (-1, service, host) := by
  unfold serviceAddDependency
  rcases h with hself | hfull
  · exact if_pos hself
  · split
    · rfl
    · rfl

theorem serviceAddDependency_noMemory (service : Service) (name : String) {host : Host} (h : host.allocs.get 0 = false) :
    ∃ host', serviceAddDependency service name host = (-1, service, host') := by
  unfold serviceAddDependency
  have hcopy : host.allocs.head = false := h
  split
  · exact ⟨host, rfl⟩
  · split
    · exact ⟨host, rfl⟩
    · simp only [Host.malloc, hcopy, if_true]
      exact ⟨_, rfl⟩

theorem serviceAddDependency_ok {service : Service} {name : String} {host : Host} (hself : name ≠ service.name)
    (hroom : service.dependencies.length < serviceMaxDependencies) (hcopy : host.allocs.get 0 = true) :
    ∃ service', serviceAddDependency service name host = (0, service', host.malloc.2) ∧ service'.name = service.name ∧
      service'.dependencies = service.dependencies ++ [name] := by
  unfold serviceAddDependency
  have hcopy' : host.allocs.head = true := hcopy
  rw [if_neg hself, dif_neg (by omega)]
  simp only [Host.malloc, hcopy', Bool.true_eq_false, if_false]
  exact ⟨_, rfl, rfl, rfl⟩

/-- One call adds the name at the end or leaves the service. -/
theorem serviceAddDependency_cases (service : Service) (name : String) (host : Host) :
    (∃ host', serviceAddDependency service name host = (-1, service, host') ∧
        (name = service.name ∨ service.dependencies.length ≥ serviceMaxDependencies ∨ host.allocs.get 0 = false)) ∨
      ∃ service', serviceAddDependency service name host = (0, service', host.malloc.2) ∧
        service'.name = service.name ∧ service'.dependencies = service.dependencies ++ [name] ∧
        name ≠ service.name ∧ service.dependencies.length < serviceMaxDependencies := by
  by_cases hself : name = service.name
  · exact .inl ⟨host, serviceAddDependency_refused (.inl hself), .inl hself⟩
  by_cases hfull : service.dependencies.length ≥ serviceMaxDependencies
  · exact .inl ⟨host, serviceAddDependency_refused (.inr hfull), .inr (.inl hfull)⟩
  cases hcopy : host.allocs.get 0 with
  | false =>
    obtain ⟨host', hx⟩ := serviceAddDependency_noMemory service name hcopy
    exact .inl ⟨host', hx, .inr (.inr rfl)⟩
  | true =>
    obtain ⟨service', hx, hname, hdeps⟩ := serviceAddDependency_ok hself (Nat.lt_of_not_le hfull) hcopy
    exact .inr ⟨service', hx, hname, hdeps, hself, Nat.lt_of_not_le hfull⟩

/-! ## The index -/

/-- The comparison of the index, cut to an `int`, with a count. -/
theorem index_toInt_ge (index : BitVec 64) (count : Nat) :
    (index.setWidth 32).toInt ≥ count ↔ count ≤ index.toNat % 2 ^ 32 ∧ index.toNat % 2 ^ 32 < 2 ^ 31 := by
  rw [BitVec.toInt_eq_toNat_cond, BitVec.toNat_setWidth]
  split <;> omega

/-- Cut to an `int`, the index still tells whether it is below the count. -/
def IndexFits (count : Nat) (index : BitVec 64) : Prop :=
  index.toNat < 2 ^ 31 ∨ count ≤ index.toNat % 2 ^ 32 ∧ index.toNat % 2 ^ 32 < 2 ^ 31

/-- What the entry at an index of a list of stored names is to read as. -/
def readBack (names : List String) (index : BitVec 64) : DependencyName :=
  match names[index.toNat]? with
  | some name => .stored name
  | none => .null

theorem serviceGetDependencyName_iff (service : Service) (index : BitVec 64) :
    serviceGetDependencyName service index = readBack service.dependencies index ↔
      IndexFits service.dependencies.length index := by
  have hfit := service.dependenciesFit
  unfold serviceGetDependencyName readBack IndexFits
  unfold serviceMaxDependencies at hfit
  by_cases hlt : index.toNat < service.dependencies.length
  · -- the index of a stored name is small and stays what it is
    have hsmall : index.toNat % 2 ^ 32 = index.toNat := Nat.mod_eq_of_lt (by omega)
    rw [if_neg, List.getElem?_eq_getElem hlt]
    · exact iff_of_true rfl (.inl (by omega))
    · rw [index_toInt_ge]
      omega
  · rw [List.getElem?_eq_none (by omega)]
    by_cases hge : (index.setWidth 32).toInt ≥ service.dependencies.length
    · rw [if_pos hge]
      exact iff_of_true rfl (.inr ((index_toInt_ge _ _).1 hge))
    · rw [if_neg hge]
      rw [index_toInt_ge] at hge
      refine iff_of_false (by simp) ?_
      rintro (hsmall | hlarge)
      · have hsame : index.toNat % 2 ^ 32 = index.toNat := Nat.mod_eq_of_lt (by omega)
        omega
      · exact hge hlarge

/-! ## Every sequence of calls -/

/-- A service that is being declared. -/
structure Declaring where
  service : Service
  host : Host
  /-- the names passed to the accepted calls, first to last -/
  accepted : List String

inductive DeclareOp
  | addDependency (name : String)
  /-- any other change of the service, and whatever the host does meanwhile -/
  | others (service : Service) (host : Host)

def DeclareOp.exec : DeclareOp → Declaring → Option Declaring
  | .addDependency name, x =>
    match serviceAddDependency x.service name x.host with
    | (0, service, host) => some ⟨service, host, x.accepted ++ [name]⟩
    | (_, service, host) => some ⟨service, host, x.accepted⟩
  | .others service host, x => some ⟨service, host, x.accepted⟩

/-- Nothing else touches the name and the dependencies. -/
def DeclareOp.Allowed (x : Declaring) : DeclareOp → Prop
  | .addDependency _ => True
  | .others service _ => service.name = x.service.name ∧ service.dependencies = x.service.dependencies

/-- Any sequence of calls on a new service. -/
abbrev DeclareRuns (name : String) (host : Host) (x : Declaring) : Prop :=
  Runs DeclareOp.exec DeclareOp.Allowed ⟨serviceCreate name, host, []⟩ x

theorem DeclareOp.accepted {x y : Declaring} {op : DeclareOp} (h : x.service.dependencies = x.accepted)
    (hok : op.Allowed x) (hx : op.exec x = some y) : y.service.dependencies = y.accepted := by
  cases op with
  | addDependency name =>
    simp only [DeclareOp.exec] at hx
    rcases serviceAddDependency_cases x.service name x.host with ⟨host', hadd, -⟩ | ⟨service', hadd, -, hdeps, -⟩
    · rw [hadd] at hx
      cases hx
      exact h
    · rw [hadd] at hx
      cases hx
      rw [hdeps, h]
  | others service host =>
    cases hx
    exact hok.2.trans h

/-- The dependencies at one index: what a read there gives, and which calls are accepted. -/
structure Declaring.ReadsBack (x : Declaring) (index : BitVec 64) : Prop where
  read : serviceGetDependencyName x.service index = readBack x.accepted index
  accepts : ∀ name, x.host.allocs.get 0 = true →
    ((serviceAddDependency x.service name x.host).1 = 0 ↔ name ≠ x.service.name ∧ x.accepted.length < serviceMaxDependencies)
  refuses : ∀ name, (serviceAddDependency x.service name x.host).1 ≠ 0 →
    (serviceAddDependency x.service name x.host).2.1 = x.service

/-- At an index the dependencies read back exactly when it still fits after the cut to an `int`. -/
theorem dependencies_read_back_iff {name : String} {host : Host} {x : Declaring} (h : DeclareRuns name host x)
    (index : BitVec 64) : x.ReadsBack index ↔ IndexFits x.accepted.length index := by
  have hdeps : x.service.dependencies = x.accepted :=
    h.holds (I := fun x => x.service.dependencies = x.accepted) (fun _ _ _ hI hok hx => DeclareOp.accepted hI hok hx) rfl
  rw [← hdeps]
  constructor
  · intro hback
    rw [← serviceGetDependencyName_iff, hback.read, hdeps]
  · intro hfits
    refine ⟨?_, fun name hcopy => ?_, fun name hno => ?_⟩
    · rw [← hdeps]
      exact (serviceGetDependencyName_iff x.service index).2 hfits
    · rw [← hdeps]
      rcases serviceAddDependency_cases x.service name x.host with ⟨host', hadd, hwhy⟩ | ⟨service', hadd, -, -, hself, hroom⟩
      · rw [hadd]
        refine iff_of_false (by simp) ?_
        rintro ⟨hself, hroom⟩
        rcases hwhy with hc | hc | hc
        · exact hself hc
        · omega
        · rw [hcopy] at hc
          cases hc
      · rw [hadd]
        exact iff_of_true rfl ⟨hself, hroom⟩
    · rcases serviceAddDependency_cases x.service name x.host with ⟨host', hadd, -⟩ | ⟨service', hadd, -⟩
      · rw [hadd]
      · rw [hadd] at hno
        exact absurd rfl hno

/-- A service with one dependency, and one that was refused. -/
theorem dependencies_read_back_db :
    ∃ x, DeclareRuns "web" (.generous [] [] 0) x ∧ x.accepted = ["db"] ∧ x.ReadsBack 0 ∧
      serviceGetDependencyName x.service 0 = .stored "db" := by
  have hnew : DeclareRuns "web" (.generous [] [] 0) ⟨serviceCreate "web", .generous [] [] 0, []⟩ := .refl _
  have hrun := (hnew.next (.addDependency "web") trivial rfl).next (.addDependency "db") trivial rfl
  have hback := (dependencies_read_back_iff hrun 0).2 (.inl (by decide))
  exact ⟨_, hrun, rfl, hback, hback.read⟩

/-- The index 2^31 is a negative `int` and passes the comparison. -/
theorem dependency_outside_at_two_pow_31 :
    ¬ ∀ (name : String) (host : Host) (x : Declaring), DeclareRuns name host x → ∀ index, x.ReadsBack index := by
  intro h
  have hread := (h "web" (.generous [] [] 0) _ (.refl _) 0x80000000#64).read
  exact absurd hread (by decide)

end EmblaOs
