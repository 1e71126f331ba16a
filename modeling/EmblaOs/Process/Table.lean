/-
The process table as a finite map from ids to processes. Over every sequence of creations, transitions,
destructions and reaps on a new table, the ids handed out only grow and stay between the two reserved
ones, a lookup finds the process created under that id unless it was destroyed since, and each call
changes the one entry it is about.
-/
import EmblaOs.Process.Manager
import EmblaOs.Lib.FiniteMap
import EmblaOs.Lib.Runs

namespace EmblaOs

open Lib

/-! ## The map -/

section Map

variable {heap heap' : Heap Process} {manager : ProcessManager}

/-- Records may change, ids do not. -/
theorem get_of_ids (hid : ∀ p ∈ manager.processes, (heap'.read p).id = (heap.read p).id) :
    processManagerGet heap' manager = processManagerGet heap manager := by
  rw [processManagerGet_eq, processManagerGet_eq]
  exact lookup_congr hid

/-- A new process is one more entry, under the counter's value. -/
theorem TableInv.get_append (h : TableInv heap manager) (parentId groupId : Nat) (name : String) (nextPid : Nat) :
    processManagerGet (heap.alloc (processCreate manager.nextPid parentId groupId name)).2
        { manager with processes := manager.processes ++ [heap.next], nextPid := nextPid } =
      Function.update (processManagerGet heap manager) manager.nextPid (some heap.next) := by
  have hold : ∀ p ∈ manager.processes,
      (heap.alloc (processCreate manager.nextPid parentId groupId name)).2.read p = heap.read p :=
    fun p hp => heap.read_alloc_of_lt _ (h.keyed.alloc p hp)
  rw [processManagerGet_eq, processManagerGet_eq, lookup_snoc]
  · rw [heap.read_alloc_self]
    congr 1
    exact lookup_congr fun p hp => by rw [hold p hp]
  · intro p hp
    rw [hold p hp, heap.read_alloc_self]
    exact Nat.ne_of_lt (h.keyed.keyLt p hp).2

end Map

/-- The entry of `id` has left the table, and nothing else has changed. -/
structure Lost (heap : Heap Process) (manager : ProcessManager) (id : Nat) (manager' : ProcessManager) : Prop where
  get : processManagerGet heap manager' = Function.update (processManagerGet heap manager) id none
  processes : ∀ p, p ∈ manager'.processes ↔ p ∈ manager.processes ∧ (heap.read p).id ≠ id
  count : manager'.processes.length + 1 = manager.processes.length
  nextPid : manager'.nextPid = manager.nextPid

section Calls

variable {heap : Heap Process} {manager : ProcessManager}

theorem TableInv.destroy_lost (h : TableInv heap manager) {p : ProcessPtr} (hp : p ∈ manager.processes) :
    ∃ manager', processManagerDestroyProcess heap manager (heap.read p).id = (0, manager') ∧
      TableInv heap manager' ∧ Lost heap manager (heap.read p).id manager' := by
  obtain ⟨index, hslot, hx⟩ := h.destroy_slot hp
  obtain ⟨hi, rfl⟩ := List.getElem?_eq_some_iff.1 hslot
  refine ⟨_, hx, h.swapRemove hi 0, ?_, fun q => ?_, length_swapRemove _ hi, rfl⟩
  · rw [processManagerGet_eq, processManagerGet_eq]
    exact lookup_swapRemove h.keyed.keys hi
  · rw [mem_swapRemove hi h.keyed.nodup]
    refine and_congr_right fun hq => not_congr ?_
    exact ⟨fun heq => by rw [heq], fun hid => h.keyed.key_inj hq hp hid⟩

/-- A destruction is of a tracked id or refused. -/
theorem TableInv.destroys (h : TableInv heap manager) (id : Nat) :
    (processManagerDestroyProcess heap manager id = (-1, manager) ∧ ∀ p ∈ manager.processes, (heap.read p).id ≠ id) ∨
      ∃ p manager', p ∈ manager.processes ∧ (heap.read p).id = id ∧
        processManagerDestroyProcess heap manager id = (0, manager') ∧
        TableInv heap manager' ∧ Lost heap manager id manager' := by
  rcases h.destroy_cases id with hno | ⟨_, p, hslot, rfl, -⟩
  · exact .inl hno
  · have hp := List.mem_of_getElem? hslot
    obtain ⟨manager', hx, hinv, hlost⟩ := h.destroy_lost hp
    exact .inr ⟨p, manager', hp, rfl, hx, hinv, hlost⟩

/-- A reap destroys a terminated child, if there is one. -/
theorem TableInv.reap (h : TableInv heap manager) (parentId : Nat) :
    (processManagerReapChild heap manager parentId = (-1, none, manager) ∧
        (parentId = emblaInvalidPid ∨
          ∀ p ∈ manager.processes, (heap.read p).parentId = parentId → (heap.read p).state ≠ .terminated)) ∨
      ∃ p manager', parentId ≠ emblaInvalidPid ∧ p ∈ manager.processes ∧ (heap.read p).parentId = parentId ∧
        (heap.read p).state = .terminated ∧
        processManagerReapChild heap manager parentId = (0, some (heap.read p).id, manager') ∧
        TableInv heap manager' ∧ Lost heap manager (heap.read p).id manager' := by
  unfold processManagerReapChild
  by_cases hinvalid : parentId = emblaInvalidPid
  · rw [if_pos hinvalid]
    exact .inl ⟨rfl, .inl hinvalid⟩
  rw [if_neg hinvalid]
  cases hw : processManagerWaitChild heap manager parentId with
  | none => exact .inl ⟨rfl, .inr ((waitChild_none hinvalid).1 hw)⟩
  | some p =>
    obtain ⟨hp, hparent, hstate⟩ := waitChild_some hw
    obtain ⟨manager', hx, hinv, hlost⟩ := h.destroy_lost hp
    refine .inr ⟨p, manager', hinvalid, hp, hparent, hstate, ?_, hinv, hlost⟩
    simp only [hx]

end Calls

/-! ## Every sequence of calls -/

/-- A table with the records of its processes and what the host answers. -/
structure Table where
  heap : Heap Process
  manager : ProcessManager
  host : Host
  /-- the processes created and destroyed, latest first -/
  log : List (MapEvent Nat ProcessPtr)

inductive TableOp
  | create (parentId groupId : Nat) (name : String)
  | transition (process : ProcessPtr) (nextState : ProcessState)
  | destroy (id : Nat)
  | reap (parentId : Nat)

def TableOp.exec : TableOp → Table → Option Table
  | .create parentId groupId name, x =>
    match processManagerCreateProcess parentId groupId name x.heap x.manager x.host with
    | (none, heap, manager, host) => some ⟨heap, manager, host, x.log⟩
    | (some p, heap, manager, host) => some ⟨heap, manager, host, .put (heap.read p).id p :: x.log⟩
  | .transition process nextState, x =>
    some { x with heap := x.heap.modify process fun p => (processTransition p nextState).2 }
  | .destroy id, x =>
    match processManagerDestroyProcess x.heap x.manager id with
    | (0, manager) => some { x with manager := manager, log := .removed id :: x.log }
    | (_, manager) => some { x with manager := manager }
  | .reap parentId, x =>
    match processManagerReapChild x.heap x.manager parentId with
    | (0, some id, manager) => some { x with manager := manager, log := .removed id :: x.log }
    | (_, _, manager) => some { x with manager := manager }

/-- A transition is of a tracked process. -/
def TableOp.Allowed (x : Table) : TableOp → Prop
  | .transition process _ => process ∈ x.manager.processes
  | _ => True

/-- Any sequence of calls on a new table. -/
abbrev TableRuns (heap : Heap Process) (host : Host) (x : Table) : Prop :=
  Runs TableOp.exec TableOp.Allowed ⟨heap, processManagerCreate, host, []⟩ x

structure Table.Inv (x : Table) : Prop where
  table : TableInv x.heap x.manager
  log : LogOf x.log (processManagerGet x.heap x.manager)
  increasing : (putKeys x.log).Pairwise (· > ·)
  range : ∀ id ∈ putKeys x.log, emblaRootPid < id ∧ id < x.manager.nextPid

theorem Table.Inv.create {x y : Table} {parentId groupId : Nat} {name : String} (h : x.Inv)
    (hx : (TableOp.create parentId groupId name).exec x = some y) : y.Inv := by
  simp only [TableOp.exec] at hx
  by_cases hroom : x.manager.Room x.host
  · rw [createProcess_ok hroom] at hx
    cases hx
    have hpos := h.table.nextLo
    refine ⟨h.table.append hroom.1 hroom.2.1 parentId groupId name, ?_, ?_, ?_⟩
    · rw [h.table.get_append, x.heap.read_alloc_self]
      exact h.log.put _ _
    · rw [putKeys_put, x.heap.read_alloc_self]
      exact List.pairwise_cons.2 ⟨fun id hid => (h.range id hid).2, h.increasing⟩
    · rw [putKeys_put, x.heap.read_alloc_self]
      intro id hid
      rcases List.mem_cons.1 hid with rfl | hid
      · exact ⟨hpos, Nat.lt_succ_self _⟩
      · exact ⟨(h.range id hid).1, Nat.lt_succ_of_lt (h.range id hid).2⟩
  · obtain ⟨nextPid, allocs, hcreate, hlo, hhi⟩ := createProcess_none hroom parentId groupId name x.heap
    rw [hcreate] at hx
    cases hx
    exact ⟨h.table.skip hlo (hhi h.table.nextHi) _, h.log, h.increasing,
      fun id hid => ⟨(h.range id hid).1, lt_of_lt_of_le (h.range id hid).2 hlo⟩⟩

theorem Table.Inv.lost {x : Table} (h : x.Inv) {id : Nat} {manager' : ProcessManager} (hinv : TableInv x.heap manager')
    (hlost : Lost x.heap x.manager id manager') :
    Table.Inv { x with manager := manager', log := .removed id :: x.log } := by
  refine ⟨hinv, ?_, h.increasing, ?_⟩
  · show LogOf _ (processManagerGet x.heap manager')
    rw [hlost.get]
    exact h.log.removed id
  · show ∀ id ∈ putKeys x.log, emblaRootPid < id ∧ id < manager'.nextPid
    rw [hlost.nextPid]
    exact h.range

theorem TableOp.inv {x y : Table} {op : TableOp} (h : x.Inv) (hx : op.exec x = some y) : y.Inv := by
  cases op with
  | create parentId groupId name => exact h.create hx
  | transition process nextState =>
    cases hx
    have hid : ∀ p, ((x.heap.modify process fun p => (processTransition p nextState).2).read p).id =
        (x.heap.read p).id := by
      intro p
      refine x.heap.field_modify process p _ Process.id ?_
      rw [processTransition_eq]
    refine ⟨h.table.of_ids (le_refl _) fun p _ => hid p, ?_, h.increasing, h.range⟩
    rw [get_of_ids fun p _ => hid p]
    exact h.log
  | destroy id =>
    simp only [TableOp.exec] at hx
    rcases h.table.destroys id with ⟨hd, -⟩ | ⟨p, manager', -, -, hd, hinv, hlost⟩
    · rw [hd] at hx
      cases hx
      exact h
    · rw [hd] at hx
      cases hx
      exact h.lost hinv hlost
  | reap parentId =>
    simp only [TableOp.exec] at hx
    rcases h.table.reap parentId with ⟨hr, -⟩ | ⟨p, manager', -, -, -, -, hr, hinv, hlost⟩
    · rw [hr] at hx
      cases hx
      exact h
    · rw [hr] at hx
      cases hx
      exact h.lost hinv hlost

/-- A full counter stays full. -/
theorem TableOp.nextPid_max {x y : Table} {op : TableOp} (h : x.Inv) (hmax : x.manager.nextPid = uint32Max)
    (hx : op.exec x = some y) : y.manager.nextPid = uint32Max := by
  cases op with
  | create parentId groupId name =>
    simp only [TableOp.exec] at hx
    have hroom : ¬ x.manager.Room x.host := fun hroom => hroom.2.1 hmax
    obtain ⟨nextPid, allocs, hcreate, hlo, hhi⟩ := createProcess_none hroom parentId groupId name x.heap
    rw [hcreate] at hx
    cases hx
    have := hhi h.table.nextHi
    show nextPid = uint32Max
    omega
  | transition process nextState =>
    cases hx
    exact hmax
  | destroy id =>
    simp only [TableOp.exec] at hx
    rcases h.table.destroys id with ⟨hd, -⟩ | ⟨p, manager', -, -, hd, -, hlost⟩
    · rw [hd] at hx
      cases hx
      exact hmax
    · rw [hd] at hx
      cases hx
      exact hlost.nextPid.trans hmax
  | reap parentId =>
    simp only [TableOp.exec] at hx
    rcases h.table.reap parentId with ⟨hr, -⟩ | ⟨p, manager', -, -, -, -, hr, -, hlost⟩
    · rw [hr] at hx
      cases hx
      exact hmax
    · rw [hr] at hx
      cases hx
      exact hlost.nextPid.trans hmax

/-! ## What each call does -/

/-- `p` has entered the table under an id above all that were handed out before. -/
structure Table.Entered (x : Table) (parentId groupId : Nat) (name : String) (p : ProcessPtr) (heap : Heap Process)
    (manager : ProcessManager) (id : Nat) : Prop where
  record : heap.read p = processCreate id parentId groupId name
  fresh : ∀ id' ∈ putKeys x.log, id' < id
  valid : id ≠ emblaRootPid ∧ id ≠ emblaInvalidPid
  get : processManagerGet heap manager = Function.update (processManagerGet x.heap x.manager) id (some p)
  count : manager.processes.length = x.manager.processes.length + 1
  others : ∀ q ∈ x.manager.processes, heap.read q = x.heap.read q

/-- The table is the map `processManagerGet`, and each call changes it at one id at most. A destroyed
process is one that no lookup finds; the records of the others are not written. -/
structure Table.Refines (x : Table) : Prop where
  increasing : (putKeys x.log).Pairwise (· > ·)
  valid : ∀ id ∈ putKeys x.log, id ≠ emblaRootPid ∧ id ≠ emblaInvalidPid
  get : ∀ id p, processManagerGet x.heap x.manager id = some p ↔ Stands x.log id p
  create : ∀ parentId groupId name,
    match processManagerCreateProcess parentId groupId name x.heap x.manager x.host with
    | (none, heap, manager, _) => heap = x.heap ∧ manager.processes = x.manager.processes
    | (some p, heap, manager, _) => ∃ id, x.Entered parentId groupId name p heap manager id
  create_fails : x.host.allocs.get 0 = true → x.host.allocs.get 1 = true → ∀ parentId groupId name,
    ((processManagerCreateProcess parentId groupId name x.heap x.manager x.host).1 = none ↔
      x.manager.processes.length = processManagerInitialCapacity ∨ x.manager.nextPid = uint32Max)
  exhausted : x.manager.nextPid = uint32Max → ∀ y, Runs TableOp.exec TableOp.Allowed x y →
    ∀ parentId groupId name, (processManagerCreateProcess parentId groupId name y.heap y.manager y.host).1 = none
  transition : ∀ p ∈ x.manager.processes, ∀ nextState,
    let heap := x.heap.modify p fun r => (processTransition r nextState).2
    processManagerGet heap x.manager = processManagerGet x.heap x.manager ∧
      (∀ q, q ≠ p → heap.read q = x.heap.read q) ∧
      ∃ state, heap.read p = { x.heap.read p with state := state }
  destroy_iff : ∀ id, (processManagerDestroyProcess x.heap x.manager id).1 = 0 ↔
    ∃ p ∈ x.manager.processes, (x.heap.read p).id = id
  destroy_lost : ∀ id, (processManagerDestroyProcess x.heap x.manager id).1 = 0 →
    Lost x.heap x.manager id (processManagerDestroyProcess x.heap x.manager id).2
  destroy_refused : ∀ id, (processManagerDestroyProcess x.heap x.manager id).1 ≠ 0 →
    (processManagerDestroyProcess x.heap x.manager id).2 = x.manager
  reap_iff : ∀ parentId, parentId ≠ emblaInvalidPid → ((processManagerReapChild x.heap x.manager parentId).1 = 0 ↔
    ∃ p ∈ x.manager.processes, (x.heap.read p).parentId = parentId ∧ (x.heap.read p).state = .terminated)
  reap_lost : ∀ parentId, (processManagerReapChild x.heap x.manager parentId).1 = 0 →
    ∃ p ∈ x.manager.processes, (x.heap.read p).parentId = parentId ∧ (x.heap.read p).state = .terminated ∧
      (processManagerReapChild x.heap x.manager parentId).2.1 = some (x.heap.read p).id ∧
      Lost x.heap x.manager (x.heap.read p).id (processManagerReapChild x.heap x.manager parentId).2.2
  reap_refused : ∀ parentId, (processManagerReapChild x.heap x.manager parentId).1 ≠ 0 →
    (processManagerReapChild x.heap x.manager parentId).2 = (none, x.manager)

theorem Table.Inv.valid {x : Table} (h : x.Inv) {id : Nat} (hid : id ∈ putKeys x.log) :
    id ≠ emblaRootPid ∧ id ≠ emblaInvalidPid := by
  have hlo := (h.range id hid).1
  have hhi := (h.range id hid).2
  have hmax := h.table.nextHi
  unfold emblaInvalidPid
  omega

theorem Table.Inv.created {x : Table} (h : x.Inv) (parentId groupId : Nat) (name : String) :
    match processManagerCreateProcess parentId groupId name x.heap x.manager x.host with
    | (none, heap, manager, _) => heap = x.heap ∧ manager.processes = x.manager.processes
    | (some p, heap, manager, _) => ∃ id, x.Entered parentId groupId name p heap manager id := by
  by_cases hroom : x.manager.Room x.host
  · rw [createProcess_ok hroom]
    have hpos := h.table.nextLo
    refine ⟨x.manager.nextPid, x.heap.read_alloc_self _, fun id hid => (h.range id hid).2, ?_, h.table.get_append .., ?_,
      fun q hq => x.heap.read_alloc_of_lt _ (h.table.keyed.alloc q hq)⟩
    · exact ⟨Nat.ne_of_gt hpos, hroom.2.1⟩
    · exact List.length_append
  · obtain ⟨nextPid, allocs, hcreate, -⟩ := createProcess_none hroom parentId groupId name x.heap
    rw [hcreate]
    exact ⟨rfl, rfl⟩

theorem createProcess_none_iff {manager : ProcessManager} {host : Host} (parentId groupId : Nat) (name : String)
    (heap : Heap Process) :
    (processManagerCreateProcess parentId groupId name heap manager host).1 = none ↔ ¬ manager.Room host := by
  by_cases hroom : manager.Room host
  · rw [createProcess_ok hroom]
    exact iff_of_false (by simp) (not_not.2 hroom)
  · obtain ⟨nextPid, allocs, hcreate, -⟩ := createProcess_none hroom parentId groupId name heap
    rw [hcreate]
    exact iff_of_true rfl hroom

theorem Table.Inv.refines {x : Table} (h : x.Inv) : x.Refines where
  increasing := h.increasing
  valid _ hid := h.valid hid
  get := h.log
  create := h.created
  create_fails h0 h1 parentId groupId name := by
    rw [createProcess_none_iff]
    have hsize := h.table.keyed.size
    unfold ProcessManager.Room
    constructor
    · intro hno
      by_contra hboth
      rw [not_or] at hboth
      exact hno ⟨by omega, hboth.2, h0, h1⟩
    · rintro (hfull | hmax) hroom
      · have := hroom.1
        omega
      · exact hroom.2.1 hmax
  exhausted hmax y hrun parentId groupId name := by
    have hfull : y.Inv ∧ y.manager.nextPid = uint32Max :=
      Runs.holds (I := fun y : Table => y.Inv ∧ y.manager.nextPid = uint32Max)
        (fun _ _ _ hI _ hx => ⟨TableOp.inv hI.1 hx, TableOp.nextPid_max hI.1 hI.2 hx⟩) hrun ⟨h, hmax⟩
    rw [createProcess_none_iff]
    exact fun hroom => hroom.2.1 hfull.2
  transition p hp nextState := by
    refine ⟨get_of_ids fun q _ => ?_, fun q hq => x.heap.read_modify_of_ne _ hq, ?_⟩
    · refine x.heap.field_modify p q _ Process.id ?_
      rw [processTransition_eq]
    · rw [Heap.read_modify_self, processTransition_eq]
      exact ⟨_, rfl⟩
  destroy_iff id := by
    rcases h.table.destroys id with ⟨hd, hno⟩ | ⟨p, manager', hp, hid, hd, -⟩ <;> rw [hd]
    · refine iff_of_false (by simp) ?_
      rintro ⟨p, hp, hid⟩
      exact hno p hp hid
    · exact iff_of_true rfl ⟨p, hp, hid⟩
  destroy_lost id hok := by
    rcases h.table.destroys id with ⟨hd, -⟩ | ⟨p, manager', -, -, hd, -, hlost⟩
    · rw [hd] at hok
      cases hok
    · rw [hd]
      exact hlost
  destroy_refused id hno := by
    rcases h.table.destroys id with ⟨hd, -⟩ | ⟨p, manager', -, -, hd, -⟩
    · rw [hd]
    · rw [hd] at hno
      exact absurd rfl hno
  reap_iff parentId hne := by
    rcases h.table.reap parentId with ⟨hr, hno⟩ | ⟨p, manager', -, hp, hparent, hstate, hr, -⟩ <;> rw [hr]
    · refine iff_of_false (by simp) ?_
      rintro ⟨p, hp, hparent, hstate⟩
      exact hno.resolve_left hne p hp hparent hstate
    · exact iff_of_true rfl ⟨p, hp, hparent, hstate⟩
  reap_lost parentId hok := by
    rcases h.table.reap parentId with ⟨hr, -⟩ | ⟨p, manager', -, hp, hparent, hstate, hr, -, hlost⟩
    · rw [hr] at hok
      cases hok
    · rw [hr]
      exact ⟨p, hp, hparent, hstate, rfl, hlost⟩
  reap_refused parentId hno := by
    rcases h.table.reap parentId with ⟨hr, -⟩ | ⟨p, manager', -, -, -, -, hr, -⟩
    · rw [hr]
    · rw [hr] at hno
      exact absurd rfl hno

theorem inv_newTable (heap : Heap Process) (host : Host) : Table.Inv ⟨heap, processManagerCreate, host, []⟩ :=
  ⟨tableInv_create heap, LogOf.nil, List.Pairwise.nil, by simp [putKeys]⟩

theorem processTable_refines_map {heap : Heap Process} {host : Host} {x : Table} (h : TableRuns heap host x) : x.Refines :=
  (h.holds (fun _ _ _ hI _ hx => TableOp.inv hI hx) (inv_newTable heap host)).refines

/-- Three processes of one family, then the first is destroyed. -/
theorem processTable_refines_firstDestroyed :
    ∃ x, TableRuns noProcesses (.generous [] [] 0) x ∧ x.manager.processes = [2, 1] ∧ x.Refines := by
  have hnew : TableRuns noProcesses (.generous [] [] 0) ⟨noProcesses, processManagerCreate, .generous [] [] 0, []⟩ := .refl _
  have hthree := ((hnew.next (.create 0 1 "sh") trivial rfl).next (.create 1 1 "db") trivial rfl).next
    (.create 1 1 "web") trivial rfl
  have hrun := hthree.next (.destroy 1) trivial rfl
  exact ⟨_, hrun, rfl, processTable_refines_map hrun⟩

end EmblaOs
