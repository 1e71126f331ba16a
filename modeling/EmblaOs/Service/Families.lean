/-
Parents and reaps, with services in the picture: `service_reap` takes processes out of the same
table. Nothing on the reaping paths looks for children of the process that goes; whoever still names
it then names nobody. A dead process has such children for one of three reasons: its death was drained
instead of handled, it was handled without memory for the walk over the children, or somebody spawned
under it when it was dead already.
-/
import EmblaOs.Process.Parents
import EmblaOs.Service.Invariant

namespace EmblaOs

open Lib

/-- The operations of the runtime, and services that start and reap their processes. -/
inductive FamilyOp
  | embla (op : EmblaOp)
  | start (service : ServicePtr)
  | reap (service : ServicePtr)

/-- The world after the operation, `none` while it has not returned. -/
def FamilyOp.exec : FamilyOp → World → Option World
  | .embla op, w => (op.exec w.embla).map w.withEmbla
  | .start s, w => some (serviceStart s w).2
  | .reap s, w => some (serviceReap s w).2

/-- Pointers are tracked, and the run loop is left out. -/
def FamilyOp.Allowed (w : World) : FamilyOp → Prop
  | .embla op => op.Valid w.embla ∧ ∀ fuel, op ≠ .runtime (.run fuel)
  | _ => True

/-- Nobody is left with a dead parent; what services start and reap leaves nobody so. -/
def FamilyOp.Heeds (w : World) : FamilyOp → Prop
  | .embla op => op.Heeds w.embla
  | _ => True

/-- Allowed, and nobody is left with a dead parent. -/
def FamilyOp.Heedful (w : World) (op : FamilyOp) : Prop := op.Allowed w ∧ op.Heeds w

namespace World

variable {w w' : World} {op : FamilyOp}

/-- What an operation does to the runtime: nothing, or what one of the runtime's own operations does;
the host may move on besides. -/
inductive Acted (w w' : World) (op : FamilyOp) : Prop
  | hostOnly (hheeds : op.Heeds w) (ho : w.embla.OnlyHost w'.embla)
  | own (own : EmblaOp) (hv : own.Valid w.embla) (hrun : ∀ fuel, own ≠ .runtime (.run fuel)) (e : Embla)
      (hx : own.exec w.embla = some e) (ho : e.OnlyHost w'.embla) (hheeds : op.Heeds w ↔ own.Heeds w.embla)

theorem acted (ha : op.Allowed w) (hx : op.exec w = some w') : Acted w w' op := by
  cases op with
  | embla op =>
    obtain ⟨e, he, rfl⟩ := Option.map_eq_some_iff.1 hx
    exact .own op ha.1 ha.2 e he ⟨_, rfl⟩ Iff.rfl
  | start s =>
    cases hx
    have hspawn : EmblaOp.exec (.runtime (.spawn (w.service s).name)) w.embla =
        some (emblaSpawn (w.service s).name w.embla).2 := rfl
    rcases serviceStart_cases s w with ⟨-, hx⟩ | ⟨-, e, hsp, hx⟩ | ⟨-, p, e, hsp, hx⟩ <;> rw [hx]
    · exact .hostOnly trivial ⟨_, rfl⟩
    · rw [hsp] at hspawn
      exact .own (.runtime (.spawn _)) trivial (fun _ hc => by cases hc) e hspawn ⟨_, rfl⟩ Iff.rfl
    · rw [hsp] at hspawn
      exact .own (.runtime (.spawn _)) trivial (fun _ hc => by cases hc) e hspawn ⟨_, rfl⟩ Iff.rfl
  | reap s =>
    cases hx
    rcases serviceReap_cases s w with ⟨r, -, hx, -⟩ | ⟨p, -, -, -, ⟨-, hx⟩ | ⟨-, hx⟩⟩ <;> rw [hx]
    · exact .hostOnly trivial ⟨_, rfl⟩
    all_goals exact .own (.reapProcess _) trivial (fun _ hc => by cases hc) _ rfl ⟨_, rfl⟩ Iff.rfl

/-- The tables in order, the ids in the order of the ages and the parents alive. -/
structure InFamily (e : Embla) : Prop where
  sound : e.Sound
  ordered : e.Ordered
  rooted : e.Rooted

/-- In a state without dead parents an operation leaves none exactly if it heeds them, and no orphan in
any case. -/
theorem InFamily.exec (h : InFamily w.embla) (ha : op.Allowed w) (hx : op.exec w = some w') :
    w'.embla.Sound ∧ w'.embla.Ordered ∧ w'.embla.NoOrphans ∧ (w'.embla.Rooted ↔ op.Heeds w) := by
  cases acted ha hx with
  | hostOnly hheeds ho =>
    have hrooted := h.rooted.onlyHost ho
    exact ⟨h.sound.onlyHost ho, h.ordered.handled h.sound.inv (.onlyHost ho), hrooted.noOrphans, iff_of_true hrooted hheeds⟩
  | own own hv hrun e he ho hheeds =>
    have hsound := h.sound.exec hv he
    have hordered := h.ordered.exec h.sound hv he
    have hno := h.rooted.noOrphans_exec h.sound hv hrun he
    have hiff := h.rooted.exec_iff h.sound hv hrun he
    rw [hheeds, ← hiff]
    refine ⟨hsound.onlyHost ho, hordered.handled hsound.inv (.onlyHost ho), hno.handled (.onlyHost ho), ?_⟩
    obtain ⟨host, hh⟩ := ho
    rw [hh]
    exact Iff.rfl

/-- As long as every death is that of a process without children, or is handled with memory for giving
them to the root, and nobody is spawned under a dead process, there are no orphans, whatever is reaped:
each process is a child of the root or of one that lives, through which it can be collected once it is
dead. The first operation that does otherwise leaves a process whose reap makes an orphan. -/
theorem no_orphans_while_the_dead_have_no_children {w₀ : World} (h₀ : w₀.Fresh)
    (h : Runs FamilyOp.exec FamilyOp.Heedful w₀ w) :
    w.embla.NoOrphans ∧
    (∀ p, w.embla.Tracked p → (w.embla.process p).parentId = emblaRootPid ∨ ∃ q, w.embla.Tracked q ∧
      (w.embla.process q).id = (w.embla.process p).parentId ∧ (w.embla.process q).state ≠ .terminated) ∧
    (∀ p, w.embla.Tracked p → (w.embla.process p).state = .terminated →
      ∃ calls, (∀ k < calls, (emblaReapChild (w.embla.process p).parentId
          (Embla.reapChildren (w.embla.process p).parentId k w.embla)).1 = 0) ∧
        ¬ (Embla.reapChildren (w.embla.process p).parentId calls w.embla).Tracked p) ∧
    ∀ (op : FamilyOp) (w' : World), op.Allowed w → op.exec w = some w' →
      ((∀ processId, (emblaReapProcess processId w'.embla).2.NoOrphans) ↔ op.Heeds w) := by
  have hfamily : InFamily w.embla := by
    refine h.holds (I := fun w => InFamily w.embla) (fun w w' op hI hop hx => ?_) ?_
    · obtain ⟨hsound, hordered, -, hiff⟩ := hI.exec hop.1 hx
      exact ⟨hsound, hordered, hiff.2 hop.2⟩
    · obtain ⟨host, he⟩ := h₀.embla
      rw [he]
      exact ⟨Embla.sound_create host, Embla.ordered_create host, Embla.rooted_create host⟩
  have hno := hfamily.rooted.noOrphans
  refine ⟨hno, hfamily.rooted, fun p hp hdead => hno.collectable hfamily.sound.inv hp hdead, fun op w' ha hx => ?_⟩
  obtain ⟨hsound, hordered, hno', hiff⟩ := hfamily.exec ha hx
  rw [hno'.reaps_iff hordered hsound.inv, hiff]

end World

/-- One fresh service above a host whose first report is the exit of the first child. -/
def firstChildExits : World := .boot (serviceCreate "web") (.generous [.event (exitOf 0 0)] [] 0)

theorem firstChildExits_fresh : firstChildExits.Fresh := World.boot_fresh ⟨rfl, rfl, rfl, rfl, rfl, rfl⟩ _

/-- The same on a host without memory for the walk over the children of the first that dies. -/
def firstChildExitsUnheard : World :=
  .boot (serviceCreate "web") { Host.generous [.event (exitOf 0 0)] [] 0 with allocs := fun n => n ≠ 6 }

/-- A parent, its exit handled, a child spawned under it, and the parent reaped. -/
def bornToTheDead : World :=
  firstChildExits.withEmbla (emblaReapProcess 1 (emblaSpawnChild 0 "child"
    (emblaHandleNextEvent (emblaSpawn "parent" firstChildExits.embla).2)).2).2

/-- A parent and a child, the parent's exit drained, and the parent reaped. -/
def leftByDrained : World :=
  firstChildExits.withEmbla (emblaReapProcess 1 (serviceRegistryDrainOneEvent
    (emblaSpawnChild 0 "child" (emblaSpawn "parent" firstChildExits.embla).2).2).2).2

/-- A parent and a child, the parent's exit handled without memory, and the parent reaped. -/
def leftByHandled : World :=
  firstChildExitsUnheard.withEmbla (emblaReapProcess 1 (emblaHandleNextEvent
    (emblaSpawnChild 0 "child" (emblaSpawn "parent" firstChildExitsUnheard.embla).2).2)).2

/-- Whichever way the parent dies with its child left to it, the reap makes the child an orphan. -/
theorem orphans_of_dead_parents :
    (Runs FamilyOp.exec FamilyOp.Allowed firstChildExits bornToTheDead ∧ ¬ bornToTheDead.embla.NoOrphans) ∧
    (Runs FamilyOp.exec FamilyOp.Allowed firstChildExits leftByDrained ∧ ¬ leftByDrained.embla.NoOrphans) ∧
    (Runs FamilyOp.exec FamilyOp.Allowed firstChildExitsUnheard leftByHandled ∧ ¬ leftByHandled.embla.NoOrphans) := by
  have hspawn : ∀ w name, FamilyOp.Allowed w (.embla (.runtime (.spawn name))) := fun _ _ => ⟨trivial, fun _ hc => by cases hc⟩
  have hreap : ∀ w, FamilyOp.Allowed w (.embla (.reapProcess 1)) := fun _ => ⟨trivial, fun _ hc => by cases hc⟩
  have hhandle : ∀ w, FamilyOp.Allowed w (.embla .handleEvent) := fun _ => ⟨trivial, fun _ hc => by cases hc⟩
  have hdrain : ∀ w, FamilyOp.Allowed w (.embla .drainEvent) := fun _ => ⟨trivial, fun _ hc => by cases hc⟩
  have hchild : ∀ w : World, w.embla.processManager.processes = [0] →
      FamilyOp.Allowed w (.embla (.runtime (.spawnChild 0 "child"))) := by
    refine fun w hw => ⟨?_, fun _ hc => by cases hc⟩
    show 0 ∈ w.embla.processManager.processes
    rw [hw]
    exact List.mem_singleton_self 0
  refine ⟨⟨?_, ?_⟩, ⟨?_, ?_⟩, ?_, ?_⟩
  · exact ((((Runs.refl _).next (.embla (.runtime (.spawn "parent"))) (hspawn _ _) rfl).next (.embla .handleEvent) (hhandle _) rfl).next
      (.embla (.runtime (.spawnChild 0 "child"))) (hchild _ rfl) rfl).next (.embla (.reapProcess 1)) (hreap _) rfl
  · unfold Embla.NoOrphans Embla.Tracked
    decide +kernel
  · exact ((((Runs.refl _).next (.embla (.runtime (.spawn "parent"))) (hspawn _ _) rfl).next
      (.embla (.runtime (.spawnChild 0 "child"))) (hchild _ rfl) rfl).next (.embla .drainEvent) (hdrain _) rfl).next
      (.embla (.reapProcess 1)) (hreap _) rfl
  · unfold Embla.NoOrphans Embla.Tracked
    decide +kernel
  · exact ((((Runs.refl _).next (.embla (.runtime (.spawn "parent"))) (hspawn _ _) rfl).next
      (.embla (.runtime (.spawnChild 0 "child"))) (hchild _ rfl) rfl).next (.embla .handleEvent) (hhandle _) rfl).next
      (.embla (.reapProcess 1)) (hreap _) rfl
  · unfold Embla.NoOrphans Embla.Tracked
    decide +kernel

/-- A service with a child and a grandchild, about to hear of the exits of the service and of the
grandchild. -/
def threeInService : World :=
  let w := (serviceStart 0 (.boot (serviceCreate "web") (.generous [.event (exitOf 0 0), .event (exitOf 2 1)] [] 0))).2
  w.withEmbla (emblaSpawnChild 1 "grandchild" (emblaSpawnChild 0 "child" w.embla).2).2

/-- The exit of the service is handled and its process reaped. -/
def reapedService : World := (serviceReap 0 (threeInService.withEmbla (emblaHandleNextEvent threeInService.embla))).2

/-- The exit of the grandchild is drained. -/
def serviceGone : World := reapedService.withEmbla (serviceRegistryDrainOneEvent reapedService.embla).2

/-- The child is the root's, the grandchild is dead and its parent, the child, lives. -/
theorem no_orphans_after_the_service_is_gone :
    serviceGone.embla.NoOrphans ∧ serviceGone.embla.processManager.processes = [2, 1] ∧
    (serviceGone.embla.process 1).parentId = emblaRootPid ∧ (serviceGone.embla.process 2).state = .terminated ∧
    (serviceGone.embla.process 2).parentId = (serviceGone.embla.process 1).id := by
  have hchild : ∀ (w : World) (parent : ProcessPtr) (name : String), w.embla.Tracked parent →
      (w.embla.process parent).state ≠ .terminated → FamilyOp.Heedful w (.embla (.runtime (.spawnChild parent name))) :=
    fun _ _ _ hp hlive => ⟨⟨hp, fun _ hc => by cases hc⟩, fun _ => hlive⟩
  have hthree : Runs FamilyOp.exec FamilyOp.Heedful
      (.boot (serviceCreate "web") (.generous [.event (exitOf 0 0), .event (exitOf 2 1)] [] 0)) threeInService :=
    (((Runs.refl _).next (.start 0) ⟨trivial, trivial⟩ rfl).next (.embla (.runtime (.spawnChild 0 "child")))
      (hchild _ 0 _ (by unfold Embla.Tracked; decide +kernel) (by decide +kernel)) rfl).next
      (.embla (.runtime (.spawnChild 1 "grandchild"))) (hchild _ 1 _ (by unfold Embla.Tracked; decide +kernel) (by decide +kernel)) rfl
  have hlonely : FamilyOp.Heedful reapedService (.embla .drainEvent) := by
    refine ⟨⟨trivial, fun _ hc => by cases hc⟩, fun p hp => ?_⟩
    -- the lookup finds the grandchild, which has no children
    have hnext : reapedService.embla.host.wait4s.head = .event (exitOf 2 1) := rfl
    obtain ⟨-, hget⟩ := (Embla.dyingNext_iff hnext p).1 hp
    have hfound : processManagerGetByHostId reapedService.embla.processHeap reapedService.embla.processManager
        (exitOf 2 1).hostId.pid = some 2 := by decide +kernel
    obtain rfl := Option.some.inj (hfound.symm.trans hget)
    show Embla.Alone reapedService.embla 2
    unfold Embla.Alone Embla.Tracked
    decide +kernel
  have hrun := ((hthree.next (.embla .handleEvent) ⟨⟨trivial, fun _ hc => by cases hc⟩, .inl rfl⟩ rfl).next (.reap 0)
    ⟨trivial, trivial⟩ rfl).next (.embla .drainEvent) hlonely rfl
  exact ⟨(World.no_orphans_while_the_dead_have_no_children (World.boot_fresh ⟨rfl, rfl, rfl, rfl, rfl, rfl⟩ _) hrun).1,
    by decide +kernel, by decide +kernel, by decide +kernel, by decide +kernel⟩

end EmblaOs
