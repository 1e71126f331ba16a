/-
The process table is a forest. A child is made after its parent, so its id is the larger one, and the
only parent that a process is ever given later is the root. Hence the parents of a process, taken one
after the other, come to an end, at the root unless somebody on the way has been left an orphan.
-/
import EmblaOs.Process.Orphans
import EmblaOs.Lib.Lineage

namespace EmblaOs

open Lib

namespace Embla

/-- The process that is the parent, if it is in the table. -/
def parent (e : Embla) (p : ProcessPtr) : Option ProcessPtr :=
  processManagerGet e.processHeap e.processManager (e.process p).parentId

/-- Every tracked process has an id above its parent's. -/
def Ordered (e : Embla) : Prop := ∀ p, e.Tracked p → (e.process p).parentId < (e.process p).id

variable {e e' : Embla} {p q : ProcessPtr}

theorem ordered_create (host : Host) : (emblaCreate host).Ordered := fun _ hp => absurd hp List.not_mem_nil

theorem Inv.root_lt (h : e.Inv) (hp : e.Tracked p) : emblaRootPid < (e.process p).id :=
  (h.table.keyed.keyLt p hp).1

/-! ## What keeps the order -/

/-- The same processes under the same ids, some of them handed to the root. -/
theorem Ordered.congr (h : e.Ordered) (hinv : e.Inv) (ht : ∀ p, e'.Tracked p → e.Tracked p)
    (hid : ∀ p, e.Tracked p → (e'.process p).id = (e.process p).id)
    (hparent : ∀ p, e.Tracked p → (e'.process p).parentId = (e.process p).parentId ∨
      (e'.process p).parentId = emblaRootPid) : e'.Ordered := by
  intro p hp
  have hold := ht p hp
  rw [hid p hold]
  rcases hparent p hold with hsame | hroot
  · rw [hsame]
    exact h p hold
  · rw [hroot]
    exact hinv.root_lt hold

theorem Ordered.handled (h : e.Ordered) (hinv : e.Inv) (hh : Handled e e') : e'.Ordered :=
  h.congr hinv (fun p => (hh.tracked p).1) (fun p _ => hh.id p) fun p _ => hh.parentId p

theorem Ordered.rescheduled (h : e.Ordered) (hinv : e.Inv) (hr : Rescheduled e e') : e'.Ordered :=
  h.congr hinv (fun p => (hr.tracked p).1) (fun p _ => (hr.kept p).1) fun p _ => .inl (hr.kept p).2.1

theorem Ordered.unspawned (h : e.Ordered) (hinv : e.Inv) (hsame : SameTables e e')
    (hproc : ∀ p < e.processHeap.next, e'.process p = e.process p) : e'.Ordered := by
  have hold : ∀ p, e.Tracked p → e'.process p = e.process p := fun p hp => hproc p (hinv.alloc hp)
  refine h.congr hinv (fun p => (hsame.tracked p).1) (fun p hp => ?_) fun p hp => ?_
  · rw [hold p hp]
  · rw [hold p hp]
    exact .inl rfl

theorem Ordered.reaped (h : e.Ordered) (hinv : e.Inv) (hr : Reaped p e e') : e'.Ordered := by
  refine h.congr hinv (fun q hq => ((hr.tracked q).1 hq).1) (fun q _ => ?_) fun q _ => ?_
  · rw [hr.process]
  · rw [hr.process]
    exact .inl rfl

/-- The counter is above every id that is in use, so above the parent's. -/
theorem Ordered.spawned (h : e.Ordered) (hinv : e.Inv) {parentId : Nat} {name : String} {g : GroupPtr}
    (hs : Spawned parentId name g e e') (hparent : parentId < e.processManager.nextPid) : e'.Ordered := by
  intro p hp
  rcases (hs.tracked p).1 hp with hold | rfl
  · rw [hs.old hinv hold]
    exact h p hold
  · obtain ⟨pid, -, hnew, -⟩ := hs.record
    rw [hnew]
    exact hparent

theorem Ordered.step (h : e.Ordered) (hs : e.Sound) (hstep : Step e e') : e'.Ordered := by
  have hinv := hs.inv
  cases hstep with
  | spawn name =>
    by_cases hroom : e.Spawnable
    · obtain ⟨e₁, hx, hl⟩ := emblaSpawn_launched hinv hroom name
      rw [hx]
      have hnew : e.withNewGroup.Ordered := h
      exact hnew.spawned (hinv.withNewGroup hroom.1.groupRoom) hl hinv.table.nextLo
    · obtain ⟨e₁, hx, hsame, hproc, -⟩ := emblaSpawn_failed hinv hroom name
      rw [hx]
      exact h.unspawned hinv hsame hproc
  | spawnChild hp name =>
    obtain ⟨g, -, -, ⟨-, e₁, hx, hspawned⟩ | ⟨-, e₁, hx, hu⟩⟩ := emblaSpawnChild_cases hinv hp name <;> rw [hx]
    · exact h.spawned hinv hspawned (hinv.table.keyed.keyLt _ hp).2
    · exact h.unspawned hinv (hu.sameTables hinv) hu.others
  | host ho _ => exact h.handled hinv (.onlyHost ho)
  | handle => exact h.handled hinv (emblaHandleNextEvent_handled e)
  | dispatch =>
    obtain ⟨l, hl, -⟩ := hinv.queue
    rcases emblaDispatch_cases hl with hx | ⟨p, rest, s, -, -, -, hx, -⟩ | ⟨p, rest, s, -, -, -, hx, -⟩ <;> rw [hx]
    · exact h
    · exact h.rescheduled hinv (rescheduled_started e p s)
    · exact h.rescheduled hinv (rescheduled_scheduler e s)
  | yield =>
    obtain ⟨l, hl, -⟩ := hinv.queue
    rcases emblaYield_cases hl with hx | ⟨p, s, -, -, hx, -⟩ <;> rw [hx]
    · exact h
    · exact h.rescheduled hinv (rescheduled_yielded e p s)
  | reap hp hdead =>
    obtain ⟨e₁, hx, hr, -⟩ := emblaReapFoundProcess_ok hinv hp
    rw [hx]
    exact h.reaped hinv hr
  | state => exact h

theorem ordered_of_runs {host : Host} (h : EmblaRuns (emblaCreate host) e) : e.Sound ∧ e.Ordered := by
  refine runs_invariant (I := fun e => e.Sound ∧ e.Ordered) (fun _ _ hv => hv)
    (fun a b hI hs => ⟨hI.1.step hs, hI.2.step hI.1 hs⟩) (fun a g n hI _ _ => ⟨hI.1.setMaxMembers g n, hI.2⟩)
    (fun a hI _ => ⟨hI.1.drain, hI.2.handled hI.1.inv (drain_handled a)⟩) h ⟨sound_create host, ordered_create host⟩

/-! ## The lineages -/

theorem Inv.parent_some (h : e.Inv) : e.parent p = some q ↔ e.Tracked q ∧ (e.process q).id = (e.process p).parentId :=
  h.table.get_iff

/-- A parent in the table is tracked and older. -/
theorem Ordered.older (h : e.Ordered) (hinv : e.Inv) :
    ∀ p q, e.Tracked p → e.parent p = some q → e.Tracked q ∧ (e.process q).id < (e.process p).id := by
  intro p q hp hq
  obtain ⟨hq, hid⟩ := hinv.parent_some.1 hq
  refine ⟨hq, ?_⟩
  rw [hid]
  exact h p hp

/-- In every state of every run the parents of a tracked process, taken one after the other, come to
an end: they are tracked, each is older than the one before, so there are fewer of them than slots in
use. The last of them is a child of the root, or of a process that has left the table. -/
theorem lineage_ends {host : Host} (h : EmblaRuns (emblaCreate host) e) (hp : e.Tracked p) :
    ∃ line, Lineage e.parent p line ∧ (∀ q ∈ line, e.Tracked q) ∧
      ((p :: line).Pairwise fun a b => (e.process b).id < (e.process a).id) ∧
      (p :: line).length ≤ e.processManager.processes.length ∧
      ∀ q, (p :: line).getLast? = some q → (∀ r, e.Tracked r → (e.process r).id ≠ (e.process q).parentId) ∧
        (e.NoOrphans → (e.process q).parentId = emblaRootPid) := by
  obtain ⟨hsound, hordered⟩ := ordered_of_runs h
  have hinv := hsound.inv
  have hlt := hordered.older hinv
  obtain ⟨line, hl⟩ := Lineage.exists_of_lt (k := fun q => (e.process q).id) hlt hp
  have hall : ∀ q ∈ line, e.Tracked q := hl.all (fun a b ha hab => (hlt a b ha hab).1) hp
  have hdown := hl.pairwise (k := fun q => (e.process q).id) hlt hp
  have hmem : ∀ q ∈ p :: line, e.Tracked q := List.forall_mem_cons.2 ⟨hp, hall⟩
  refine ⟨line, hl, hall, hdown, length_le_of_decreasing (k := fun q => (e.process q).id) hdown hmem, fun q hq => ?_⟩
  have hnone := hl.last q hq
  have hgone : ∀ r, e.Tracked r → (e.process r).id ≠ (e.process q).parentId := by
    intro r hr hid
    rw [hinv.parent_some.2 ⟨hr, hid⟩] at hnone
    cases hnone
  refine ⟨hgone, fun hno => ?_⟩
  exact (hno q (hmem q (List.mem_of_getLast? hq))).resolve_right fun ⟨r, hr, hid⟩ => hgone r hr hid

end Embla

/-- Three generations. -/
def threeGenerations : Embla :=
  (emblaSpawnChild 1 "grandchild" (emblaSpawnChild 0 "child" (emblaSpawn "init" (emblaCreate (.generous [] [] 0))).2).2).2

theorem lineage_ends_third : ∃ line, Lineage threeGenerations.parent 2 line ∧ (2 :: line).length ≤ 3 := by
  have hrun : EmblaRuns (emblaCreate (.generous [] [] 0)) threeGenerations :=
    (((Runs.refl _).next (.runtime (.spawn "init")) trivial rfl).next (.runtime (.spawnChild 0 "child"))
      (by decide +kernel : Embla.Tracked _ 0) rfl).next (.runtime (.spawnChild 1 "grandchild"))
      (by decide +kernel : Embla.Tracked _ 1) rfl
  obtain ⟨line, hl, -, -, hlen, -⟩ := Embla.lineage_ends hrun (p := 2) (by decide +kernel)
  exact ⟨line, hl, hlen⟩

end EmblaOs
