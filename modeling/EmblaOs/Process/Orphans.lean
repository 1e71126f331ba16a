/-
Parents. A process names its parent by id. `NoOrphans` says that the parent is the root or still in
the table; only a reap can break it, and breaks it exactly when some other process names the one that
is taken out. `Rooted` is what a handled death is for: the parent is the root or still alive, so
whoever is reaped has no children any more. What keeps one keeps the other, so the lemmas are stated
for `Parented`, where the parent may be asked for anything.
-/
import EmblaOs.Process.Membership

namespace EmblaOs

open Lib

namespace Embla

/-- Every tracked process is a child of the root or of a tracked process. -/
def NoOrphans (e : Embla) : Prop :=
  ∀ p, e.Tracked p → (e.process p).parentId = emblaRootPid ∨
    ∃ q, e.Tracked q ∧ (e.process q).id = (e.process p).parentId

/-- No other tracked process names `p` as its parent. -/
def Childless (e : Embla) (p : ProcessPtr) : Prop :=
  ∀ r, e.Tracked r → r ≠ p → (e.process r).parentId ≠ (e.process p).id

/-- Every tracked process is a child of the root or of a tracked process that has not terminated. -/
def Rooted (e : Embla) : Prop :=
  ∀ p, e.Tracked p → (e.process p).parentId = emblaRootPid ∨
    ∃ q, e.Tracked q ∧ (e.process q).id = (e.process p).parentId ∧ (e.process q).state ≠ .terminated

/-- Every tracked process is a child of the root or of a tracked process that is `fit`. -/
def Parented (fit : Process → Prop) (e : Embla) : Prop :=
  ∀ p, e.Tracked p → (e.process p).parentId = emblaRootPid ∨
    ∃ q, e.Tracked q ∧ (e.process q).id = (e.process p).parentId ∧ fit (e.process q)

variable {e e' : Embla} {p : ProcessPtr}

theorem noOrphans_iff : e.NoOrphans ↔ e.Parented fun _ => True := by
  simp only [NoOrphans, Parented, and_true]

theorem rooted_iff : e.Rooted ↔ e.Parented fun process => process.state ≠ .terminated := Iff.rfl

theorem rooted_create (host : Host) : (emblaCreate host).Rooted := fun _ hp => absurd hp List.not_mem_nil

theorem Rooted.noOrphans (h : e.Rooted) : e.NoOrphans := by
  intro p hp
  rcases h p hp with hroot | ⟨q, hq, hid, -⟩
  · exact .inl hroot
  · exact .inr ⟨q, hq, hid⟩

/-- The ids of tracked processes are neither the root's nor invalid. -/
theorem Inv.id_ne_root (h : e.Inv) (hp : e.Tracked p) : (e.process p).id ≠ emblaRootPid := by
  have hlo : 1 ≤ (e.process p).id := (h.table.keyed.keyLt p hp).1
  unfold emblaRootPid
  omega

theorem Inv.id_inj (h : e.Inv) {q : ProcessPtr} (hp : e.Tracked p) (hq : e.Tracked q)
    (hid : (e.process p).id = (e.process q).id) : p = q :=
  h.table.keyed.key_inj hp hq hid

/-! ## What keeps the parents -/

section Parented

variable {fit : Process → Prop}

/-- The same processes under the same ids, some of them handed to the root. -/
theorem Parented.congr (h : e.Parented fit) (ht : ∀ p, e'.Tracked p ↔ e.Tracked p)
    (hid : ∀ p, e.Tracked p → (e'.process p).id = (e.process p).id)
    (hparent : ∀ p, e.Tracked p → (e'.process p).parentId = (e.process p).parentId ∨
      (e'.process p).parentId = emblaRootPid)
    (hfit : ∀ p, e.Tracked p → fit (e.process p) → fit (e'.process p)) : e'.Parented fit := by
  intro p hp
  rw [ht] at hp
  rcases hparent p hp with hsame | hroot
  · rw [hsame]
    rcases h p hp with hroot | ⟨q, hq, hqid, hqfit⟩
    · exact .inl hroot
    · exact .inr ⟨q, (ht q).2 hq, (hid q hq).trans hqid, hfit q hq hqfit⟩
  · exact .inl hroot

theorem Parented.handled (h : e.Parented fit) (hh : Handled e e')
    (hfit : ∀ p, e.Tracked p → fit (e.process p) → fit (e'.process p)) : e'.Parented fit := by
  exact h.congr hh.tracked (fun p _ => hh.id p) (fun p _ => hh.parentId p) hfit

theorem Parented.rescheduled (h : e.Parented fit) (hr : Rescheduled e e')
    (hfit : ∀ p, fit (e.process p) → fit (e'.process p)) : e'.Parented fit :=
  h.congr hr.tracked (fun p _ => (hr.kept p).1) (fun p _ => .inl (hr.kept p).2.1) fun p _ => hfit p

theorem Parented.unspawned (h : e.Parented fit) (hinv : e.Inv) (hsame : SameTables e e')
    (hproc : ∀ p < e.processHeap.next, e'.process p = e.process p) : e'.Parented fit := by
  have hold : ∀ p, e.Tracked p → e'.process p = e.process p := fun p hp => hproc p (hinv.alloc hp)
  refine h.congr hsame.tracked (fun p hp => ?_) (fun p hp => ?_) fun p hp hfit => ?_
  · rw [hold p hp]
  · rw [hold p hp]
    exact .inl rfl
  · rw [hold p hp]
    exact hfit

theorem Parented.spawned (h : e.Parented fit) (hinv : e.Inv) {parentId : Nat} {name : String} {g : GroupPtr}
    (hs : Spawned parentId name g e e')
    (hparent : parentId = emblaRootPid ∨ ∃ q, e.Tracked q ∧ (e.process q).id = parentId ∧ fit (e.process q)) :
    e'.Parented fit := by
  -- whoever was a parent before still is: the new process has a record of its own
  have hold : ∀ id, (∃ q, e.Tracked q ∧ (e.process q).id = id ∧ fit (e.process q)) →
      ∃ q, e'.Tracked q ∧ (e'.process q).id = id ∧ fit (e'.process q) := by
    rintro id ⟨q, hq, hid, hfit⟩
    refine ⟨q, (hs.tracked q).2 (.inl hq), ?_⟩
    rw [hs.old hinv hq]
    exact ⟨hid, hfit⟩
  intro p hp
  rcases (hs.tracked p).1 hp with hp | rfl
  · rw [hs.old hinv hp]
    exact (h p hp).imp_right (hold _)
  · obtain ⟨pid, -, hnew, -⟩ := hs.record
    rw [hnew]
    exact hparent.imp_right (hold _)

end Parented

/-! ## What keeps `NoOrphans` -/

theorem NoOrphans.handled (h : e.NoOrphans) (hh : Handled e e') : e'.NoOrphans :=
  noOrphans_iff.2 ((noOrphans_iff.1 h).handled hh fun _ _ _ => trivial)

theorem NoOrphans.unspawned (h : e.NoOrphans) (hinv : e.Inv) (hsame : SameTables e e')
    (hproc : ∀ p < e.processHeap.next, e'.process p = e.process p) : e'.NoOrphans :=
  noOrphans_iff.2 ((noOrphans_iff.1 h).unspawned hinv hsame hproc)

theorem NoOrphans.spawned (h : e.NoOrphans) (hinv : e.Inv) {parentId : Nat} {name : String} {g : GroupPtr}
    (hs : Spawned parentId name g e e')
    (hparent : parentId = emblaRootPid ∨ ∃ q, e.Tracked q ∧ (e.process q).id = parentId) : e'.NoOrphans := by
  refine noOrphans_iff.2 ((noOrphans_iff.1 h).spawned hinv hs (hparent.imp_right ?_))
  rintro ⟨q, hq, hid⟩
  exact ⟨q, hq, hid, trivial⟩

/-- A reap leaves no orphan exactly when nobody else names the reaped process. -/
theorem NoOrphans.reaped_iff (h : e.NoOrphans) (hinv : e.Inv) (hp : e.Tracked p) (hr : Reaped p e e') :
    e'.NoOrphans ↔ e.Childless p := by
  have hproc := hr.process
  constructor
  · intro hafter r hrt hne hparent
    rcases hafter r ((hr.tracked r).2 ⟨hrt, hne⟩) with hroot | ⟨q, hq, hqid⟩
    · rw [hproc, hparent] at hroot
      exact hinv.id_ne_root hp hroot
    · rw [hproc, hproc, hparent] at hqid
      obtain ⟨hq, hqp⟩ := (hr.tracked q).1 hq
      exact hqp (hinv.id_inj hq hp hqid)
  · intro hchildless r hrt
    obtain ⟨hrt, hne⟩ := (hr.tracked r).1 hrt
    rw [hproc]
    rcases h r hrt with hroot | ⟨q, hq, hqid⟩
    · exact .inl hroot
    · refine .inr ⟨q, (hr.tracked q).2 ⟨hq, ?_⟩, by rw [hproc]; exact hqid⟩
      rintro rfl
      exact hchildless r hrt hne hqid.symm

theorem NoOrphans.spawnChild (h : e.NoOrphans) (hinv : e.Inv) {parent : ProcessPtr} (hp : e.Tracked parent)
    (name : String) : (emblaSpawnChild parent name e).2.NoOrphans := by
  obtain ⟨g, -, -, ⟨-, e₁, hx, hs⟩ | ⟨-, e₁, hx, hu⟩⟩ := emblaSpawnChild_cases hinv hp name <;> rw [hx]
  · exact h.spawned hinv hs (.inr ⟨parent, hp, rfl⟩)
  · exact h.unspawned hinv (hu.sameTables hinv) hu.others

/-! ## The two reaping calls -/

/-- The process `embla_reap_process` takes out for this id. -/
def reapTarget (e : Embla) (id : Nat) : Option ProcessPtr :=
  (processManagerGet e.processHeap e.processManager id).filter fun p => (e.process p).state = .terminated

theorem emblaReapProcess_target (h : e.Inv) (id : Nat) :
    (e.reapTarget id = none ∧ emblaReapProcess id e = (-1, e)) ∨
    ∃ p e', e.reapTarget id = some p ∧ e.Tracked p ∧ (e.process p).state = .terminated ∧
      emblaReapProcess id e = (0, e') ∧ Reaped p e e' := by
  unfold reapTarget emblaReapProcess
  cases hg : processManagerGet e.processHeap e.processManager id with
  | none => exact .inl ⟨rfl, rfl⟩
  | some p =>
    simp only
    by_cases hdead : (e.process p).state = .terminated
    · right
      have hp : e.Tracked p := get_some hg
      obtain ⟨e', hx, hr, -⟩ := emblaReapFoundProcess_ok h hp
      refine ⟨p, e', ?_, hp, hdead, ?_, hr⟩
      · simp [Option.filter, hdead]
      · rw [if_neg (not_not.2 hdead), hx]
    · left
      refine ⟨?_, if_pos hdead⟩
      simp [Option.filter, hdead]

theorem emblaReapChild_target (h : e.Inv) (parentId : Nat) :
    (processManagerWaitChild e.processHeap e.processManager parentId = none ∧
      emblaReapChild parentId e = (-1, none, e)) ∨
    ∃ p e', processManagerWaitChild e.processHeap e.processManager parentId = some p ∧ e.Tracked p ∧
      (e.process p).state = .terminated ∧ emblaReapChild parentId e = (0, some (e.process p).id, e') ∧ Reaped p e e' ∧ e'.Inv := by
  unfold emblaReapChild
  cases hw : processManagerWaitChild e.processHeap e.processManager parentId with
  | none => exact .inl ⟨rfl, rfl⟩
  | some p =>
    right
    obtain ⟨hp, -, hdead⟩ := waitChild_some hw
    obtain ⟨e', hx, hr, hinv⟩ := emblaReapFoundProcess_ok h hp
    refine ⟨p, e', rfl, hp, hdead, ?_, hr, hinv⟩
    simp only [hx, ne_eq, not_true_eq_false, if_false]

/-- Outside the run loop nothing leaves the table but a dead process that a reap is asked for, by its own
id or by that of its parent. -/
theorem Inv.exec_tracked (h : e.Inv) {op : EmblaOp} (hv : op.Valid e) (hrun : ∀ fuel, op ≠ .runtime (.run fuel))
    (hx : op.exec e = some e') (hp : e.Tracked p) :
    e'.Tracked p ∨ (e.process p).state = .terminated ∧
      (op = .reapChild (e.process p).parentId ∨ op = .reapProcess (e.process p).id) := by
  cases op with
  | runtime op =>
    left
    cases runtimeTurn hx with
    | spawned name hop he =>
      rw [he]
      by_cases hs : e.Spawnable
      · obtain ⟨e₁, hx, hl⟩ := emblaSpawn_launched h hs name
        rw [hx]
        exact (hl.tracked p).2 (.inl hp)
      · obtain ⟨e₁, hx, hsame, -⟩ := emblaSpawn_failed h hs name
        rw [hx]
        exact (hsame.tracked p).2 hp
    | spawnedChild parent name hop he =>
      subst hop
      obtain ⟨g, -, -, ⟨-, e₁, hx, hs⟩ | ⟨-, e₁, hx, hu⟩⟩ := emblaSpawnChild_cases h hv name <;> rw [he, hx]
      · exact (hs.tracked p).2 (.inl hp)
      · exact (tracked_congr hu.processes p).2 hp
    | signalled hs =>
      obtain ⟨host, rfl⟩ := hs.1
      exact hp
    | stopping hop he =>
      rw [he]
      unfold emblaStop
      split <;> exact hp
    | ran fuel result hop => exact absurd (congrArg EmblaOp.runtime hop) (hrun fuel)
  | setMaxMembers g maxMembers =>
    cases hx
    exact .inl hp
  | handleEvent =>
    cases hx
    exact .inl (((emblaHandleNextEvent_handled e).tracked p).2 hp)
  | drainEvent =>
    cases hx
    exact .inl ((drain_tracked e p).2 hp)
  | reapChild parentId =>
    cases hx
    rcases emblaReapChild_target h parentId with ⟨-, hx⟩ | ⟨q, e₁, hsome, -, hdead, hx, hr, -⟩ <;> rw [hx]
    · exact .inl hp
    · by_cases hpq : p = q
      · subst hpq
        obtain ⟨-, hparent, -⟩ := waitChild_some hsome
        exact .inr ⟨hdead, .inl (by rw [← hparent]; rfl)⟩
      · exact .inl ((hr.tracked p).2 ⟨hp, hpq⟩)
  | reapProcess processId =>
    cases hx
    rcases emblaReapProcess_target h processId with ⟨-, hx⟩ | ⟨q, e₁, hsome, -, hdead, hx, hr⟩ <;> rw [hx]
    · exact .inl hp
    · by_cases hpq : p = q
      · subst hpq
        obtain ⟨hget, -⟩ := Option.filter_eq_some_iff.1 hsome
        have hid := (h.table.get_iff.1 hget).2
        exact .inr ⟨hdead, .inr (by rw [← hid]; rfl)⟩
      · exact .inl ((hr.tracked p).2 ⟨hp, hpq⟩)
  | dispatch =>
    cases hx
    exact .inl hp
  | yield =>
    cases hx
    exact .inl hp

theorem NoOrphans.reapProcess_iff (h : e.NoOrphans) (hinv : e.Inv) (id : Nat) :
    (emblaReapProcess id e).2.NoOrphans ↔ ∀ p, e.reapTarget id = some p → e.Childless p := by
  rcases emblaReapProcess_target hinv id with ⟨hnone, hx⟩ | ⟨p, e', hsome, hp, -, hx, hr⟩ <;> rw [hx]
  · exact iff_of_true h fun p hp => by rw [hnone] at hp; cases hp
  · rw [h.reaped_iff hinv hp hr, hsome]
    exact ⟨fun hc q hq => by cases hq; exact hc, fun hc => hc p rfl⟩

/-! ## Collecting the dead -/

/-- So many calls of `embla_reap_child` in a row. -/
def reapChildren (parentId : Nat) : Nat → Embla → Embla
  | 0, e => e
  | calls + 1, e => reapChildren parentId calls (emblaReapChild parentId e).2.2

theorem waitChild_exists (hp : e.Tracked p) (hdead : (e.process p).state = .terminated)
    (hvalid : (e.process p).parentId ≠ emblaInvalidPid) :
    ∃ r, processManagerWaitChild e.processHeap e.processManager (e.process p).parentId = some r := by
  unfold processManagerWaitChild
  rw [if_neg hvalid, ← Option.isSome_iff_exists, List.find?_isSome]
  refine ⟨p, hp, ?_⟩
  simp only [Bool.and_eq_true, decide_eq_true_eq]
  exact ⟨rfl, hdead⟩

/-- A terminated process is collected by as many calls for its parent as there are siblings before
it, each of them successful. -/
theorem Inv.collected (parentId : Nat) (hvalid : parentId ≠ emblaInvalidPid) : ∀ (size : Nat) (e : Embla), e.Inv →
    e.processManager.processes.length = size → ∀ p, e.Tracked p → (e.process p).state = .terminated →
    (e.process p).parentId = parentId →
    ∃ calls, (∀ k < calls, (emblaReapChild parentId (reapChildren parentId k e)).1 = 0) ∧
      ¬ (reapChildren parentId calls e).Tracked p
  | 0, e, _, hsize, p, hp, _, _ => by
    unfold Tracked at hp
    rw [List.length_eq_zero_iff.1 hsize] at hp
    cases hp
  | size + 1, e, hinv, hsize, p, hp, hdead, hparent => by
    obtain ⟨r, hwait⟩ := waitChild_exists hp hdead (by rw [hparent]; exact hvalid)
    rw [hparent] at hwait
    obtain ⟨hnone, -⟩ | ⟨r', e₁, hsome, -, -, hcall, hreaped, hinv₁⟩ := emblaReapChild_target hinv parentId
    · rw [hnone] at hwait
      cases hwait
    rw [hwait] at hsome
    cases hsome
    rcases eq_or_ne p r with rfl | hne
    · refine ⟨1, fun k hk => ?_, fun hc => ?_⟩
      · obtain rfl : k = 0 := by omega
        change (emblaReapChild parentId e).1 = 0
        rw [hcall]
      · change (emblaReapChild parentId e).2.2.Tracked p at hc
        rw [hcall] at hc
        exact ((hreaped.tracked p).1 hc).2 rfl
    · -- a sibling went first
      have hproc := hreaped.process p
      obtain ⟨calls, hok, hgone⟩ := Inv.collected parentId hvalid size e₁ hinv₁ (by have := hreaped.count; omega) p
        ((hreaped.tracked p).2 ⟨hp, hne⟩) (by rw [hproc]; exact hdead) (by rw [hproc]; exact hparent)
      refine ⟨calls + 1, fun k hk => ?_, ?_⟩
      · cases k with
        | zero =>
          change (emblaReapChild parentId e).1 = 0
          rw [hcall]
        | succ k =>
          change (emblaReapChild parentId (reapChildren parentId k (emblaReapChild parentId e).2.2)).1 = 0
          rw [hcall]
          exact hok k (by omega)
      · change ¬ (reapChildren parentId calls (emblaReapChild parentId e).2.2).Tracked p
        rw [hcall]
        exact hgone

/-- Without orphans every dead process can be collected through the root or a tracked parent. -/
theorem NoOrphans.collectable (h : e.NoOrphans) (hinv : e.Inv) (hp : e.Tracked p)
    (hdead : (e.process p).state = .terminated) :
    ∃ calls, (∀ k < calls, (emblaReapChild (e.process p).parentId (reapChildren (e.process p).parentId k e)).1 = 0) ∧
      ¬ (reapChildren (e.process p).parentId calls e).Tracked p := by
  refine Inv.collected (e.process p).parentId ?_ _ e hinv rfl p hp hdead rfl
  rcases h p hp with hroot | ⟨q, hq, hid⟩
  · rw [hroot]
    decide
  · rw [← hid]
    exact hinv.table.id_valid hq

end Embla

end EmblaOs
