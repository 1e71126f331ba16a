/-
Living parents. `Rooted` is lost in three ways: a death that is drained takes the parent of its children
away, so does one that is handled without memory for giving them to the root, and a spawn under a dead
process makes a child that never had a living one. Every other step keeps it, the reaps too, and these
three lose it exactly when there is a child to lose its parent.
-/
import EmblaOs.Process.Forest

namespace EmblaOs

open Lib

namespace Embla

variable {e e' : Embla} {p : ProcessPtr} {event : ChildEvent}

/-- No tracked process names `p` as its parent. -/
def Alone (e : Embla) (p : ProcessPtr) : Prop := ∀ r, e.Tracked r → (e.process r).parentId ≠ (e.process p).id

/-- If the next report is a death, it is that of a process without children. -/
def LonelyDeath (e : Embla) : Prop := ∀ p, e.DyingNext p → e.Alone p

/-- There is room for a child of `parent`. -/
def ChildRoom (e : Embla) (parent : ProcessPtr) : Prop :=
  ∃ g ∈ e.processGroupManager.groups, parent ∈ (e.group g).processes ∧ e.Room g

/-- A process that has terminated is nobody's parent. -/
theorem Rooted.alone (h : e.Rooted) (hinv : e.Inv) (hp : e.Tracked p) (hdead : (e.process p).state = .terminated) :
    e.Alone p := by
  intro r hr hparent
  rcases h r hr with hroot | ⟨q, hq, hid, hlive⟩
  · exact hinv.id_ne_root hp (hparent.symm.trans hroot)
  · have hsame : q = p := hinv.id_inj hq hp (hid.trans hparent)
    rw [hsame] at hlive
    exact hlive hdead

/-- When `p` dies and nothing else changes, the parents still live exactly if it had no children. -/
theorem Rooted.dead_iff (h : e.Rooted) (hinv : e.Inv) (hp : e.Tracked p) (ht : ∀ q, e'.Tracked q ↔ e.Tracked q)
    (hid : ∀ q, (e'.process q).id = (e.process q).id) (hparent : ∀ q, (e'.process q).parentId = (e.process q).parentId)
    (hdead : (e'.process p).state = .terminated) (hother : ∀ q, q ≠ p → (e'.process q).state = (e.process q).state) :
    e'.Rooted ↔ e.Alone p := by
  constructor
  · intro hafter r hr hchild
    rcases hafter r ((ht r).2 hr) with hroot | ⟨q, hq, hqid, hlive⟩
    · rw [hparent, hchild] at hroot
      exact hinv.id_ne_root hp hroot
    · rw [hid, hparent, hchild] at hqid
      obtain rfl : q = p := hinv.id_inj ((ht q).1 hq) hp hqid
      exact hlive hdead
  · intro halone r hr
    have hr := (ht r).1 hr
    rw [hparent]
    rcases h r hr with hroot | ⟨q, hq, hqid, hlive⟩
    · exact .inl hroot
    · have hne : q ≠ p := by
        rintro rfl
        exact halone r hr hqid.symm
      refine .inr ⟨q, (ht q).2 hq, (hid q).trans hqid, ?_⟩
      rw [hother q hne]
      exact hlive

/-! ## What keeps `Rooted` -/

theorem Rooted.dispatch (h : e.Rooted) (hinv : e.Inv) : (emblaDispatch e).2.Rooted := by
  obtain ⟨l, hl, -⟩ := hinv.queue
  rcases emblaDispatch_cases hl with hx | ⟨p, rest, s, -, -, -, hx, -⟩ | ⟨p, rest, s, -, -, -, hx, -⟩ <;> rw [hx]
  · exact h
  · refine (rooted_iff.1 h).rescheduled (rescheduled_started e p s) fun q hq => ?_
    rcases eq_or_ne q p with rfl | hne
    · rw [started_self]
      exact fun hc => by cases hc
    · rw [started_other e s hne]
      exact hq
  · exact (rooted_iff.1 h).rescheduled (rescheduled_scheduler e s) fun _ hq => hq

/-- The children of a process that died are the root's, so the others still have live parents. -/
theorem Rooted.died (h : e.Rooted) (p : ProcessPtr) (usage : Rusage) : ((e.ended p usage).orphaned p).Rooted := by
  have hid : ∀ q, ((e.ended p usage).process q).id = (e.process q).id := fun q =>
    ended_field Process.id (fun _ _ _ => rfl) e p q usage
  have hparent : ∀ q, ((e.ended p usage).process q).parentId = (e.process q).parentId := fun q =>
    ended_field Process.parentId (fun _ _ _ => rfl) e p q usage
  intro r hr
  by_cases hchild : (e.process r).parentId = (e.process p).id
  · left
    rw [orphaned_process, if_pos]
    rw [hid, hparent]
    exact ⟨hr, hchild⟩
  · have hsame : ((e.ended p usage).orphaned p).process r = (e.ended p usage).process r := by
      rw [orphaned_process, if_neg]
      rw [hid, hparent]
      exact fun hc => hchild hc.2
    rw [hsame, hparent]
    rcases h r hr with hroot | ⟨q, hq, hqid, hqlive⟩
    · exact .inl hroot
    · have hne : q ≠ p := by
        rintro rfl
        exact hchild hqid.symm
      refine .inr ⟨q, hq, ?_, ?_⟩
      · rw [orphaned_field Process.id (fun _ => rfl), hid]
        exact hqid
      · rw [orphaned_field Process.state (fun _ => rfl), ended_other e usage hne]
        exact hqlive

theorem Rooted.note (h : e.Rooted) (p : ProcessPtr) (status : WaitStatus) :
    (e.modifyProcess p (WaitStatus.note status)).Rooted := by
  have hh := handled_note e p status
  refine (rooted_iff.1 h).handled hh fun q _ hlive => ?_
  rcases eq_or_ne q p with rfl | hne
  · rw [process_modifyProcess_self, (WaitStatus.note_keeps status _).2.2.2.1]
    exact hlive
  · rw [process_modifyProcess_of_ne e _ hne]
    exact hlive

/-- A stop or a continue. -/
theorem Rooted.moved (h : e.Rooted) (p : ProcessPtr) {next : ProcessState} (hnext : next = .stopped ∨ next = .running) :
    (e.modifyProcess p fun _ => (processTransition (e.process p) next).2).Rooted := by
  refine (rooted_iff.1 h).congr (fun _ => Iff.rfl) (fun q _ => ?_) (fun q _ => ?_) fun q _ hlive => ?_
  all_goals rcases eq_or_ne q p with rfl | hne
  · rw [process_modifyProcess_self, processTransition_eq]
  · rw [process_modifyProcess_of_ne e _ hne]
  · rw [process_modifyProcess_self, processTransition_eq]
    exact .inl rfl
  · rw [process_modifyProcess_of_ne e _ hne]
    exact .inl rfl
  · rw [process_modifyProcess_self, processTransition_eq]
    simp only
    split
    · rcases hnext with rfl | rfl <;> exact fun hc => by cases hc
    · exact hlive
  · rw [process_modifyProcess_of_ne e _ hne]
    exact hlive

/-- An event that was handled to the end. -/
theorem Rooted.childEvent (h : e.Rooted) (hret : (emblaHandleChildEvent event e).1 = 0) :
    (emblaHandleChildEvent event e).2.Rooted := by
  rcases emblaHandleChildEvent_cases event e with ⟨-, hx⟩ | ⟨p, -, ⟨-, hx⟩ | ⟨next, hnext, -, hx⟩ | ⟨-, hx⟩⟩
  · rw [hx]
    exact h
  · rw [hx]
    exact h
  · rw [hx]
    exact h.moved p hnext
  · rw [hx] at hret ⊢
    have hnote := h.note p event.status
    generalize e.modifyProcess p (WaitStatus.note event.status) = e₁ at hret hnote
    -- only the last of the five ways ends with 0
    rcases emblaHandleTerminated_cases p event.usage e₁ with ⟨-, hy⟩ | ⟨-, ⟨-, hy⟩ | ⟨-, -, hy⟩ | ⟨-, -, ⟨-, hy⟩ | ⟨-, hy⟩⟩⟩ <;>
      rw [hy] at hret ⊢
    · cases hret
    · cases hret
    · cases hret
    · cases hret
    · exact hnote.died p event.usage

/-! ## When `Rooted` is lost -/

theorem alone_congr (ht : ∀ q, e'.Tracked q ↔ e.Tracked q) (hid : (e'.process p).id = (e.process p).id)
    (hparent : ∀ q, (e'.process q).parentId = (e.process q).parentId) : e'.Alone p ↔ e.Alone p := by
  unfold Alone
  simp only [ht, hid, hparent]

theorem alone_note (e : Embla) (p : ProcessPtr) (status : WaitStatus) :
    (e.modifyProcess p (WaitStatus.note status)).Alone p ↔ e.Alone p := by
  obtain ⟨hid, -, -, -, hparent⟩ := WaitStatus.note_keeps status (e.process p)
  refine alone_congr (fun _ => Iff.rfl) ?_ fun q => ?_
  · rw [process_modifyProcess_self]
    exact hid
  · rcases eq_or_ne q p with rfl | hne
    · rw [process_modifyProcess_self]
      exact hparent
    · rw [process_modifyProcess_of_ne e _ hne]

/-- The end of `p` without a word to its children. -/
theorem Rooted.ended_iff (h : e.Rooted) (hinv : e.Inv) (hp : e.Tracked p) (usage : Rusage) :
    (e.ended p usage).Rooted ↔ e.Alone p := by
  refine h.dead_iff hinv hp (fun _ => Iff.rfl) (fun q => ?_) (fun q => ?_) ?_ fun q hne => ?_
  · exact ended_field Process.id (fun _ _ _ => rfl) e p q usage
  · exact ended_field Process.parentId (fun _ _ _ => rfl) e p q usage
  · rw [ended_self]
    rfl
  · rw [ended_other e usage hne]

/-- A handled death takes the parent away exactly when the children cannot be given to the root. -/
theorem Rooted.childEvent_iff (h : e.Rooted) (hinv : e.Inv) (event : ChildEvent) :
    (emblaHandleChildEvent event e).2.Rooted ↔ e.host.allocs.head = true ∨ (event.status.Death →
      ∀ p, processManagerGetByHostId e.processHeap e.processManager event.hostId.pid = some p → e.Alone p) := by
  rcases emblaHandleChildEvent_cases event e with ⟨hnone, hx⟩ | ⟨p, hget, ⟨hother, hx⟩ | ⟨next, hnext, hdeath, hx⟩ | ⟨hdeath, hx⟩⟩
  · rw [hx, hnone]
    exact iff_of_true h (.inr fun _ p hp => by cases hp)
  · rw [hx, hother]
    exact iff_of_true h (.inr fun hd => hd.elim)
  · rw [hx]
    exact iff_of_true (h.moved p hnext) (.inr fun hd => absurd hd hdeath)
  have hp : e.Tracked p := (getByHostId_some hget).1
  have hright : (e.host.allocs.head = true ∨ (event.status.Death →
      ∀ p, processManagerGetByHostId e.processHeap e.processManager event.hostId.pid = some p → e.Alone p)) ↔
      e.host.allocs.head = true ∨ e.Alone p := by
    rw [hget]
    refine or_congr_right ⟨fun ha => ha hdeath p rfl, fun ha _ q hq => ?_⟩
    cases hq
    exact ha
  rw [hx, hright]
  have hnote := h.note p event.status
  have hinv₁ := hinv.handled (handled_note e p event.status)
  have hstate : ((e.modifyProcess p (WaitStatus.note event.status)).process p).state = (e.process p).state := by
    rw [process_modifyProcess_self]
    exact (WaitStatus.note_keeps event.status (e.process p)).2.2.2.1
  rcases emblaHandleTerminated_cases p event.usage (e.modifyProcess p (WaitStatus.note event.status)) with
    ⟨hno, hy⟩ | ⟨-, ⟨hid, -⟩ | ⟨-, halloc, hy⟩ | ⟨-, halloc, ⟨-, hy⟩ | ⟨-, hy⟩⟩⟩
  · -- a refused end is that of a process that is dead already
    rw [hy]
    refine iff_of_true hnote (.inr ?_)
    have hdead : (e.process p).state = .terminated := by
      by_contra hlive
      have hcan := (canTransition_terminated (e.process p).state).2 ⟨hinv.started p hp, hlive⟩
      rw [hstate, hcan] at hno
      cases hno
    exact h.alone hinv hp hdead
  · exact absurd hid (hinv₁.table.id_valid hp)
  · have hfalse : e.host.allocs.head = false := halloc
    rw [hy, hfalse, ← alone_note e p event.status, ← hnote.ended_iff hinv₁ hp event.usage]
    simp only [Bool.false_eq_true, false_or]
    exact Iff.rfl
  · rw [hy]
    exact iff_of_true (hnote.died p event.usage) (.inl halloc)
  · rw [hy]
    exact iff_of_true (hnote.died p event.usage) (.inl halloc)

theorem Rooted.handleNext_iff (h : e.Rooted) (hinv : e.Inv) :
    (emblaHandleNextEvent e).Rooted ↔ e.host.allocs.head = true ∨ e.LonelyDeath := by
  rw [emblaHandleNextEvent_eq]
  by_cases hw : ∃ event, e.host.wait4s.head = .event event
  · obtain ⟨event, hw⟩ := hw
    have hpolled : e.polled.Rooted := h
    have hiff := hpolled.childEvent_iff (hinv.handled (.onlyHost ⟨_, rfl⟩)) event
    rw [show e.polled.host.allocs = e.host.allocs from (Host.wait4_rest e.host).2.2.1] at hiff
    rw [hw]
    refine hiff.trans (or_congr_right ⟨fun ha p hp => ?_, fun ha hd p hget => ha p ⟨event, hw, hd, hget⟩⟩)
    obtain ⟨hd, hget⟩ := (dyingNext_iff hw p).1 hp
    exact ha hd p hget
  · have hno : ∀ event, e.host.wait4s.head ≠ .event event := fun event hc => hw ⟨event, hc⟩
    have hlonely : e.LonelyDeath := fun p hp => absurd hp (not_dyingNext hno p)
    rcases Wait4Answer.silent hno with hs | hs | hs <;> rw [hs] <;> exact iff_of_true h (.inr hlonely)

/-- A drained death takes the parent away whenever there are children. -/
theorem Rooted.drain_iff (h : e.Rooted) (hinv : e.Inv) : (serviceRegistryDrainOneEvent e).2.Rooted ↔ e.LonelyDeath := by
  rcases serviceRegistryDrainOneEvent_cases e with ⟨hno, hx⟩ | ⟨event, p, hdying, hd, hx⟩ <;> rw [hx]
  · exact iff_of_true h fun p hp => absurd hp (hno p)
  have hp : e.Tracked p := by
    obtain ⟨_, _, _, hget⟩ := hdying
    exact (getByHostId_some hget).1
  have hlonely : e.LonelyDeath ↔ e.Alone p := by
    refine ⟨fun hl => hl p hdying, fun ha q hq => ?_⟩
    rw [hq.unique hdying]
    exact ha
  obtain ⟨hid, -, -, hparent⟩ := drainRecord_id e.host.platform event (e.process p)
  have hpolled : e.polled.Rooted := h
  rw [hlonely]
  refine h.dead_iff hinv hp (fun _ => Iff.rfl) (fun q => ?_) (fun q => ?_) ?_ fun q hne => ?_
  · rcases eq_or_ne q p with rfl | hne
    · rw [process_modifyProcess_self]
      exact hid
    · rw [process_modifyProcess_of_ne _ _ hne]
      rfl
  · rcases eq_or_ne q p with rfl | hne
    · rw [process_modifyProcess_self]
      exact hparent
    · rw [process_modifyProcess_of_ne _ _ hne]
      rfl
  · rw [process_modifyProcess_self]
    exact drainRecord_state_death _ hd (hinv.started p hp)
  · rw [process_modifyProcess_of_ne _ _ hne]
    rfl

/-- The group of a process is the only one it is in. -/
theorem Inv.group_unique (h : e.Inv) {g g' : GroupPtr} (hg : g ∈ e.processGroupManager.groups)
    (hg' : g' ∈ e.processGroupManager.groups) (hm : p ∈ (e.group g).processes) (hm' : p ∈ (e.group g').processes) : g = g' :=
  h.groupTable.keyed.key_inj hg hg' ((h.member g hg p hm).2.symm.trans (h.member g' hg' p hm').2)

/-- A child of a dead process never had a living parent. -/
theorem Rooted.spawnChild_iff (h : e.Rooted) (hinv : e.Inv) {parent : ProcessPtr} (hp : e.Tracked parent) (name : String) :
    (emblaSpawnChild parent name e).2.Rooted ↔ (e.ChildRoom parent → (e.process parent).state ≠ .terminated) := by
  obtain ⟨g, hg, hm, ⟨hroom, e', hx, hs⟩ | ⟨hno, e', hx, hu⟩⟩ := emblaSpawnChild_cases hinv hp name <;> rw [hx]
  · constructor
    · rintro hafter - hdead
      obtain ⟨pid, -, hnew, -⟩ := hs.record
      rcases hafter e.processHeap.next ((hs.tracked _).2 (.inr rfl)) with hroot | ⟨q, hq, hqid, hlive⟩
      · rw [hnew] at hroot
        exact hinv.id_ne_root hp hroot
      · rw [hnew] at hqid
        rcases (hs.tracked q).1 hq with hold | rfl
        · rw [hs.old hinv hold] at hqid hlive
          obtain rfl : q = parent := hinv.id_inj hold hp hqid
          exact hlive hdead
        · rw [hnew] at hqid
          have hlt : (e.process parent).id < e.processManager.nextPid := (hinv.table.keyed.keyLt parent hp).2
          exact absurd hqid (ne_of_gt hlt)
    · intro hlive
      exact (rooted_iff.1 h).spawned hinv hs (.inr ⟨parent, hp, rfl, hlive ⟨g, hg, hm, hroom⟩⟩)
  · refine iff_of_true ((rooted_iff.1 h).unspawned hinv (hu.sameTables hinv) hu.others) ?_
    rintro ⟨g', hg', hm', hroom⟩
    obtain rfl := hinv.group_unique hg hg' hm hm'
    exact absurd hroom hno

/-! ## The other operations -/

theorem Rooted.onlyHost (h : e.Rooted) (ho : e.OnlyHost e') : e'.Rooted := by
  obtain ⟨host, rfl⟩ := ho
  exact h

theorem Rooted.spawn (h : e.Rooted) (hinv : e.Inv) (name : String) : (emblaSpawn name e).2.Rooted := by
  by_cases hs : e.Spawnable
  · obtain ⟨e₁, hx, hl⟩ := emblaSpawn_launched hinv hs name
    rw [hx]
    have hnew : e.withNewGroup.Rooted := h
    exact (rooted_iff.1 hnew).spawned (hinv.withNewGroup hs.1.groupRoom) hl (.inl rfl)
  · obtain ⟨e₁, hx, hsame, hproc, -⟩ := emblaSpawn_failed hinv hs name
    rw [hx]
    exact (rooted_iff.1 h).unspawned hinv hsame hproc

theorem Rooted.yield (h : e.Rooted) (hinv : e.Inv) : (emblaYield e).2.Rooted := by
  obtain ⟨l, hl, -⟩ := hinv.queue
  rcases emblaYield_cases hl with hx | ⟨p, s, -, -, hx, -⟩ <;> rw [hx]
  · exact h
  · refine (rooted_iff.1 h).rescheduled (rescheduled_yielded e p s) fun q hq => ?_
    rcases eq_or_ne q p with rfl | hne
    · rw [yielded_self]
      exact fun hc => by cases hc
    · rw [yielded_other e s hne]
      exact hq

/-- The dead leave nobody behind. -/
theorem Rooted.without (h : e.Rooted) (hdead : (e.process p).state = .terminated)
    (hr : Reaped p e e') : e'.Rooted := by
  have hproc := hr.process
  intro r hrt
  obtain ⟨hrt, -⟩ := (hr.tracked r).1 hrt
  rw [hproc]
  rcases h r hrt with hroot | ⟨q, hq, hqid, hlive⟩
  · exact .inl hroot
  · refine .inr ⟨q, (hr.tracked q).2 ⟨hq, ?_⟩, ?_⟩
    · rintro rfl
      exact hlive hdead
    · rw [hproc]
      exact ⟨hqid, hlive⟩

theorem Rooted.reapProcess (h : e.Rooted) (hinv : e.Inv) (id : Nat) : (emblaReapProcess id e).2.Rooted := by
  rcases emblaReapProcess_target hinv id with ⟨-, hx⟩ | ⟨p, e', -, -, hdead, hx, hr⟩ <;> rw [hx]
  · exact h
  · exact h.without hdead hr

theorem Rooted.reapChild (h : e.Rooted) (hinv : e.Inv) (parentId : Nat) : (emblaReapChild parentId e).2.2.Rooted := by
  rcases emblaReapChild_target hinv parentId with ⟨-, hx⟩ | ⟨p, e', -, -, hdead, hx, hr, -⟩ <;> rw [hx]
  · exact h
  · exact h.without hdead hr

/-- Where no orphan is, the parents live exactly if no reap makes an orphan. -/
theorem NoOrphans.reaps_iff (h : e.NoOrphans) (hord : e.Ordered) (hinv : e.Inv) :
    (∀ id, (emblaReapProcess id e).2.NoOrphans) ↔ e.Rooted := by
  constructor
  · intro hreaps p hp
    rcases h p hp with hroot | ⟨q, hq, hqid⟩
    · exact .inl hroot
    refine .inr ⟨q, hq, hqid, fun hdead => ?_⟩
    -- the reap of a dead parent leaves its child behind
    have hne : p ≠ q := by
      rintro rfl
      have := hord p hp
      omega
    have htarget : e.reapTarget (e.process q).id = some q := by
      have hget : processManagerGet e.processHeap e.processManager (e.process q).id = some q :=
        hinv.table.get_iff.2 ⟨hq, rfl⟩
      unfold reapTarget
      rw [hget]
      simp [Option.filter, hdead]
    exact (h.reapProcess_iff hinv _).1 (hreaps _) q htarget p hp hne hqid.symm
  · exact fun hr id => (hr.reapProcess hinv id).noOrphans

end Embla

/-! ## Every operation -/

/-- Nobody is left with a dead parent: the deaths are those of processes without children or, where they
are handled, there is memory to give the children away, and none is spawned under a dead process. -/
def EmblaOp.Heeds (e : Embla) : EmblaOp → Prop
  | .drainEvent => e.LonelyDeath
  | .handleEvent => e.host.allocs.head = true ∨ e.LonelyDeath
  | .runtime (.spawnChild parent _) => e.ChildRoom parent → (e.process parent).state ≠ .terminated
  | _ => True

namespace Embla

variable {e e' : Embla} {op : EmblaOp}

theorem Rooted.exec_iff (h : e.Rooted) (hs : e.Sound) (hv : op.Valid e) (hrun : ∀ fuel, op ≠ .runtime (.run fuel))
    (hx : op.exec e = some e') : e'.Rooted ↔ op.Heeds e := by
  have hinv := hs.inv
  cases op with
  | runtime op =>
    cases op with
    | spawn name =>
      cases hx
      exact iff_of_true (h.spawn hinv name) trivial
    | spawnChild parent name =>
      cases hx
      exact h.spawnChild_iff hinv hv name
    | run fuel => exact absurd rfl (hrun fuel)
    | stop =>
      cases hx
      refine iff_of_true ?_ trivial
      unfold emblaStop
      split
      · exact h
      · exact h
    | terminate process =>
      cases hx
      exact iff_of_true (h.onlyHost (emblaTerminate_host process e)) trivial
    | stopProcess process =>
      cases hx
      exact iff_of_true (h.onlyHost (emblaStopProcess_host process e)) trivial
    | continueProcess process =>
      cases hx
      exact iff_of_true (h.onlyHost (emblaContinueProcess_host process e)) trivial
    | kill process =>
      cases hx
      exact iff_of_true (h.onlyHost (emblaKill_host process e)) trivial
    | signalGroup group signal =>
      cases hx
      exact iff_of_true (h.onlyHost (emblaSignalGroup_host group signal e)) trivial
  | setMaxMembers g maxMembers =>
    cases hx
    exact iff_of_true h trivial
  | handleEvent =>
    cases hx
    exact h.handleNext_iff hinv
  | drainEvent =>
    cases hx
    exact h.drain_iff hinv
  | reapChild parentId =>
    cases hx
    exact iff_of_true (h.reapChild hinv parentId) trivial
  | reapProcess processId =>
    cases hx
    exact iff_of_true (h.reapProcess hinv processId) trivial
  | dispatch =>
    cases hx
    exact iff_of_true (h.dispatch hinv) trivial
  | yield =>
    cases hx
    exact iff_of_true (h.yield hinv) trivial

/-- Even where a parent is lost the child is no orphan before a reap. -/
theorem Rooted.noOrphans_exec (h : e.Rooted) (hs : e.Sound) (hv : op.Valid e)
    (hrun : ∀ fuel, op ≠ .runtime (.run fuel)) (hx : op.exec e = some e') : e'.NoOrphans := by
  have hinv := hs.inv
  by_cases hheeds : op.Heeds e
  · exact ((h.exec_iff hs hv hrun hx).2 hheeds).noOrphans
  cases op with
  | runtime op =>
    cases op with
    | spawnChild parent name =>
      cases hx
      exact h.noOrphans.spawnChild hinv hv name
    | _ => exact absurd trivial hheeds
  | handleEvent =>
    cases hx
    exact h.noOrphans.handled (emblaHandleNextEvent_handled e)
  | drainEvent =>
    cases hx
    exact h.noOrphans.handled (drain_handled e)
  | _ => exact absurd trivial hheeds

theorem Ordered.exec (h : e.Ordered) (hs : e.Sound) (hv : op.Valid e) (hx : op.exec e = some e') : e'.Ordered := by
  rcases EmblaOp.exec_steps hv hx with ⟨g, maxMembers, rfl, -, rfl⟩ | ⟨rfl, rfl⟩ | hsteps
  · exact h
  · exact h.handled hs.inv (drain_handled e)
  · exact (Steps.invariant (I := fun e => e.Sound ∧ e.Ordered) (fun _ _ hI hstep => ⟨hI.1.step hstep, hI.2.step hI.1 hstep⟩)
      hsteps ⟨hs, h⟩).2

end Embla

end EmblaOs
