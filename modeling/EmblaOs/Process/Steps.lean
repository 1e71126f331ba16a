/-
All operations of the runtime and their runs. `embla_run` and the reaping calls do nothing but poll,
handle events, dispatch, reap terminated processes and set the state, so what these elementary steps
keep, every run keeps.
-/
import EmblaOs.Process.Handling
import EmblaOs.Process.Run

namespace EmblaOs

open Lib Relation

/-- `embla_handle_child_event` on the event of the next poll, if there is one. -/
def emblaHandleNextEvent (e : Embla) : Embla :=
  match executorPollAny e with
  | (_, none, e) => e
  | (_, some event, e) => (emblaHandleChildEvent event e).2

/-- `scheduler_yield` on the runtime. -/
def emblaYield (e : Embla) : Int × Embla :=
  let (result, scheduler, heap) := schedulerYield e.scheduler e.processHeap
  (result, { e with scheduler := scheduler, processHeap := heap })

/-- `process_group_set_max_members` on the runtime. -/
def emblaSetMaxMembers (group : GroupPtr) (maxMembers : Nat) (e : Embla) : Embla :=
  e.modifyGroup group fun g => processGroupSetMaxMembers g maxMembers

inductive EmblaOp
  | runtime (op : RuntimeOp)
  | setMaxMembers (group : GroupPtr) (maxMembers : Nat)
  | handleEvent
  | drainEvent
  | reapChild (parentId : Nat)
  | reapProcess (processId : Nat)
  | dispatch
  | yield

/-- The runtime after the operation, `none` while it has not returned. -/
def EmblaOp.exec : EmblaOp → Embla → Option Embla
  | .runtime op, e => op.exec e
  | .setMaxMembers group maxMembers, e => some (emblaSetMaxMembers group maxMembers e)
  | .handleEvent, e => some (emblaHandleNextEvent e)
  | .drainEvent, e => some (serviceRegistryDrainOneEvent e).2
  | .reapChild parentId, e => some (emblaReapChild parentId e).2.2
  | .reapProcess processId, e => some (emblaReapProcess processId e).2
  | .dispatch, e => some (emblaDispatch e).2
  | .yield, e => some (emblaYield e).2

/-- The pointers an operation is given are those of a tracked process or group. -/
def EmblaOp.Valid (e : Embla) : EmblaOp → Prop
  | .runtime (.spawnChild parent _) => e.Tracked parent
  | .setMaxMembers group _ => group ∈ e.processGroupManager.groups
  | _ => True

/-- Any run of the runtime. -/
abbrev EmblaRuns : Embla → Embla → Prop := Runs EmblaOp.exec EmblaOp.Valid

namespace Embla

/-- The elementary steps. -/
inductive Step : Embla → Embla → Prop
  | spawn (name : String) (e : Embla) : Step e (emblaSpawn name e).2
  | spawnChild {e : Embla} {parent : ProcessPtr} (hp : e.Tracked parent) (name : String) :
      Step e (emblaSpawnChild parent name e).2
  | host {e e' : Embla} (ho : e.OnlyHost e') (hm : e.host.Moves none e'.host) : Step e e'
  | handle (e : Embla) : Step e (emblaHandleNextEvent e)
  | dispatch (e : Embla) : Step e (emblaDispatch e).2
  | yield (e : Embla) : Step e (emblaYield e).2
  | reap {e : Embla} {p : ProcessPtr} (hp : e.Tracked p) (hdead : (e.process p).state = .terminated) :
      Step e (emblaReapFoundProcess p e).2
  | state (e : Embla) (state : EmblaState) : Step e { e with state := state }

abbrev Steps : Embla → Embla → Prop := ReflTransGen Step

variable {e e' : Embla} {p : ProcessPtr}

theorem Steps.invariant {I : Embla → Prop} (hstep : ∀ e e', I e → Step e e' → I e') (h : e.Steps e') (he : I e) :
    I e' := by
  induction h with
  | refl => exact he
  | tail _ hs ih => exact hstep _ _ ih hs

theorem emblaHandleNextEvent_eq (e : Embla) :
    emblaHandleNextEvent e = (match e.host.wait4s.head with
      | .event event => (emblaHandleChildEvent event e.polled).2
      | _ => e.polled) := by
  unfold emblaHandleNextEvent
  rw [executorPollAny_eq]
  cases e.host.wait4s.head <;> rfl

theorem steps_stop (e : Embla) : e.Steps (emblaStop e) := by
  unfold emblaStop
  split
  · exact .refl
  · exact .single (.state e .stopping)

/-! ## The operations as steps -/

theorem emblaReapChild_steps (parentId : Nat) (e : Embla) : e.Steps (emblaReapChild parentId e).2.2 := by
  unfold emblaReapChild
  cases hw : processManagerWaitChild e.processHeap e.processManager parentId with
  | none => exact .refl
  | some p =>
    obtain ⟨hp, -, hdead⟩ := waitChild_some hw
    have hreap : e.Steps (emblaReapFoundProcess p e).2 := .single (.reap hp hdead)
    simp only
    split <;> exact hreap

theorem get_some {heap : Heap Process} {manager : ProcessManager} {id : Nat}
    (h : processManagerGet heap manager id = some p) : p ∈ manager.processes := by
  unfold processManagerGet at h
  split at h
  · cases h
  · exact List.mem_of_getElem? h

theorem emblaReapProcess_steps (processId : Nat) (e : Embla) : e.Steps (emblaReapProcess processId e).2 := by
  unfold emblaReapProcess
  cases hg : processManagerGet e.processHeap e.processManager processId with
  | none => exact .refl
  | some p =>
    simp only
    split
    · exact .refl
    · rename_i hdead
      exact .single (.reap (get_some hg) (not_not.1 hdead))

theorem reapRootLoop_steps : ∀ (rounds : Nat) (e : Embla), e.Steps (reapRootLoop rounds e).2
  | 0, _ => .refl
  | rounds + 1, e => by
    unfold reapRootLoop
    cases processManagerWaitChild e.processHeap e.processManager emblaRootPid with
    | none => exact .refl
    | some p =>
      have hreap := emblaReapChild_steps emblaRootPid e
      simp only
      split
      · exact hreap
      · exact hreap.trans (reapRootLoop_steps rounds _)

theorem emblaShutdown_steps (e : Embla) : e.Steps (emblaShutdown e).2 := by
  unfold emblaShutdown emblaReapRootChildren
  have hreap := reapRootLoop_steps (e.processManager.processes.length + 1) e
  split
  · exact .refl
  simp only
  split
  · exact hreap
  · exact hreap.tail (.state _ .stopped)

theorem Round.steps {failed : Bool} (h : Round e failed e') : e.Steps e' := by
  have hhandle : e.Steps (emblaHandleNextEvent e) := .single (.handle e)
  rw [emblaHandleNextEvent_eq] at hhandle
  cases h with
  | error hw =>
    rw [hw] at hhandle
    exact hhandle
  | quiet hw =>
    rcases hw with hw | hw <;> rw [hw] at hhandle <;> exact hhandle
  | refused event hw =>
    rw [hw] at hhandle
    exact hhandle
  | handled event hw =>
    rw [hw] at hhandle
    exact hhandle
  | stuck event hw =>
    rw [hw] at hhandle
    exact hhandle.tail (.dispatch _)
  | dispatched event hw =>
    rw [hw] at hhandle
    exact hhandle.tail (.dispatch _)

/-- A round of the loop: an event is handled, maybe a process dispatched, maybe the state set. -/
theorem emblaRunBody_steps (e : Embla) : e.Steps (emblaRunBody e).2 := by
  obtain ⟨failed, e₁, hround, hx⟩ := emblaRunBody_round e
  rw [hx]
  cases failed with
  | true => exact hround.steps.tail (.state _ .stopped)
  | false =>
    unfold roundEnd
    simp only [Bool.false_eq_true, if_false]
    split
    · exact hround.steps.trans (steps_stop e₁)
    · exact hround.steps

theorem atCondition_steps (e : Embla) : e.Steps e.atCondition := by
  have hlook : e.Steps { e with host := e.host.stopRequest.2 } := .single (.host ⟨_, rfl⟩ ⟨id, fun _ _ => rfl⟩)
  unfold atCondition
  split
  · exact hlook.trans (steps_stop _)
  · exact hlook

theorem emblaRunLoop_steps : ∀ (fuel : Nat) (e : Embla) (result : Int × Embla),
    emblaRunLoop fuel e = some result → e.Steps result.2
  | 0, _, _, hx => by cases hx
  | fuel + 1, e, result, hx => by
    rw [emblaRunLoop_succ] at hx
    have hcond := atCondition_steps e
    have hbody := hcond.trans (emblaRunBody_steps e.atCondition)
    split at hx
    · rcases hb : emblaRunBody e.atCondition with ⟨_ | r, e₁⟩ <;> rw [hb] at hx hbody
      · exact hbody.trans (emblaRunLoop_steps fuel e₁ result hx)
      · cases hx
        exact hbody
    split at hx
    · have hshut := hcond.trans (emblaShutdown_steps e.atCondition)
      split at hx <;> cases hx <;> exact hshut
    · cases hx
      exact hcond

theorem emblaRun_steps {fuel : Nat} {result : Int × Embla} (hx : emblaRun fuel e = some result) : e.Steps result.2 := by
  unfold emblaRun at hx
  have hstart : e.Steps { e with state := .running } := .single (.state e .running)
  split at hx
  · cases hx
    exact .refl
  simp only at hx
  split at hx
  · have hdispatch := hstart.tail (.dispatch _)
    split at hx
    · cases hx
      exact hdispatch.tail (.state _ .stopped)
    · exact hdispatch.trans (emblaRunLoop_steps fuel _ result hx)
  · exact hstart.trans (emblaRunLoop_steps fuel _ result hx)

theorem RuntimeOp.exec_steps {op : RuntimeOp} (hv : EmblaOp.Valid e (.runtime op)) (hx : op.exec e = some e') :
    e.Steps e' := by
  cases runtimeTurn hx with
  | spawned name hop he =>
    subst he
    exact .single (.spawn name e)
  | spawnedChild parent name hop he =>
    subst hop he
    exact .single (.spawnChild hv name)
  | signalled hs => exact .single (.host hs.1 hs.2)
  | stopping hop he =>
    subst he
    exact steps_stop e
  | ran fuel result hop hret => exact emblaRun_steps hret

/-- Every operation but a new cap and a drain is made of elementary steps. -/
theorem EmblaOp.exec_steps {op : EmblaOp} (hv : op.Valid e) (hx : op.exec e = some e') :
    (∃ g maxMembers, op = .setMaxMembers g maxMembers ∧ g ∈ e.processGroupManager.groups ∧
      e' = emblaSetMaxMembers g maxMembers e) ∨
    (op = .drainEvent ∧ e' = (serviceRegistryDrainOneEvent e).2) ∨ e.Steps e' := by
  cases op with
  | setMaxMembers g maxMembers =>
    cases hx
    exact .inl ⟨g, maxMembers, rfl, hv, rfl⟩
  | drainEvent =>
    cases hx
    exact .inr (.inl ⟨rfl, rfl⟩)
  | runtime op => exact .inr (.inr (RuntimeOp.exec_steps hv hx))
  | handleEvent =>
    cases hx
    exact .inr (.inr (.single (.handle e)))
  | reapChild parentId =>
    cases hx
    exact .inr (.inr (emblaReapChild_steps parentId e))
  | reapProcess processId =>
    cases hx
    exact .inr (.inr (emblaReapProcess_steps processId e))
  | dispatch =>
    cases hx
    exact .inr (.inr (.single (.dispatch e)))
  | yield =>
    cases hx
    exact .inr (.inr (.single (.yield e)))

/-- What the elementary steps, new caps and drains keep holds in every state of a run. -/
theorem runs_invariant {ok : Embla → EmblaOp → Prop} (hok : ∀ e op, ok e op → op.Valid e) {I : Embla → Prop}
    (hstep : ∀ e e', I e → Step e e' → I e')
    (hcap : ∀ e g maxMembers, I e → g ∈ e.processGroupManager.groups → ok e (.setMaxMembers g maxMembers) →
      I (emblaSetMaxMembers g maxMembers e))
    (hdrain : ∀ e, I e → ok e .drainEvent → I (serviceRegistryDrainOneEvent e).2)
    (h : Runs EmblaOp.exec ok e e') (he : I e) : I e' := by
  refine h.holds (fun e e' op hI hop hx => ?_) he
  rcases EmblaOp.exec_steps (hok e op hop) hx with ⟨g, maxMembers, rfl, hg, rfl⟩ | ⟨rfl, rfl⟩ | hs
  · exact hcap e g maxMembers hI hg hop
  · exact hdrain e hI hop
  · exact Steps.invariant hstep hs hI

end Embla

end EmblaOs
