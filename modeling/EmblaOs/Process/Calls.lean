/-
What the operations ask of the host. Every one of them is made of single calls, `Host.Calls`, and of
polls; so what the single calls keep is said once, for spawning with its rollback, for the signals and
for the look at the loop condition. In the same way whatever polls, dispatches, reaps and changes of
state keep is kept by `embla_run`.
-/
import EmblaOs.Process.Membership

namespace EmblaOs

open Lib Relation

namespace Host

/-- A call of the host other than a poll. -/
inductive Call : Host → Host → Prop
  | malloc (h : Host) : Call h h.malloc.2
  | fork (group : Int) (h : Host) : Call h (h.fork group).2
  | setpgid (h : Host) : Call h h.setpgid.2
  | kill (pid : Int) (signal : Signal) (h : Host) : Call h (h.kill pid signal).2
  | killGroup (group : Int) (signal : Signal) (h : Host) : Call h (h.killGroup group signal).2
  | waitpid (pid : Int) (h : Host) : Call h (h.waitpid pid).2
  | stopRequest (h : Host) : Call h h.stopRequest.2

/-- Calls one after the other. -/
abbrev Calls : Host → Host → Prop := ReflTransGen Call

variable {h h' : Host}

/-- The platform, the reports to come and the clock are as before. -/
theorem Call.kept (hc : Call h h') : h'.platform = h.platform ∧ h'.wait4s = h.wait4s ∧ h'.clock = h.clock := by
  cases hc with
  | fork group =>
    unfold Host.fork
    cases h.forks.head <;> exact ⟨rfl, rfl, rfl⟩
  | waitpid pid =>
    unfold Host.waitpid
    cases h.waitpids.head <;> exact ⟨rfl, rfl, rfl⟩
  | _ => exact ⟨rfl, rfl, rfl⟩

/-- None of these calls tells anything of a child. -/
theorem Call.trace (hc : Call h h') : ∃ calls, h'.trace = calls ++ h.trace ∧ ∀ event, .reported event ∉ calls := by
  have hsame : ∃ calls, h.trace = calls ++ h.trace ∧ ∀ event, HostCall.reported event ∉ calls :=
    ⟨[], rfl, fun _ => List.not_mem_nil⟩
  cases hc with
  | malloc => exact hsame
  | fork group =>
    unfold Host.fork
    cases h.forks.head with
    | none => exact hsame
    | some pid => exact ⟨[.forked pid.pid group], rfl, fun event hm => (by cases List.mem_singleton.1 hm)⟩
  | setpgid => exact hsame
  | kill pid signal => exact ⟨[.killed pid signal h.kills.head], rfl, fun event hm => (by cases List.mem_singleton.1 hm)⟩
  | killGroup group signal =>
    exact ⟨[.killedGroup group signal h.kills.head], rfl, fun event hm => (by cases List.mem_singleton.1 hm)⟩
  | waitpid pid =>
    unfold Host.waitpid
    cases h.waitpids.head with
    | false => exact hsame
    | true => exact ⟨[.collected pid], rfl, fun event hm => (by cases List.mem_singleton.1 hm)⟩
  | stopRequest => exact hsame

theorem Calls.kept (hc : Calls h h') : h'.platform = h.platform ∧ h'.wait4s = h.wait4s ∧ h'.clock = h.clock := by
  induction hc with
  | refl => exact ⟨rfl, rfl, rfl⟩
  | tail _ hstep ih =>
    obtain ⟨h1, h2, h3⟩ := hstep.kept
    exact ⟨h1.trans ih.1, h2.trans ih.2.1, h3.trans ih.2.2⟩

theorem Calls.trace (hc : Calls h h') : ∃ calls, h'.trace = calls ++ h.trace ∧ ∀ event, .reported event ∉ calls := by
  induction hc with
  | refl => exact ⟨[], rfl, fun _ => List.not_mem_nil⟩
  | tail _ hstep ih =>
    obtain ⟨calls, hx, hno⟩ := ih
    obtain ⟨more, hy, hno'⟩ := hstep.trace
    refine ⟨more ++ calls, ?_, fun event hm => ?_⟩
    · rw [hy, hx, List.append_assoc]
    · exact (List.mem_append.1 hm).elim (hno' event) (hno event)

end Host

/-! ## Signals -/

theorem executorKillAndReap_calls (pid : Int) (e : Embla) : e.host.Calls (executorKillAndReap pid e).2.host := by
  have hkill : e.host.Calls (e.host.kill pid .sigkill).2 := .single (.kill pid .sigkill e.host)
  have hwait := hkill.tail (.waitpid pid _)
  unfold executorKillAndReap
  simp only
  split
  · exact hkill
  · split <;> exact hwait

theorem executorTerminate_calls (process : ProcessPtr) (e : Embla) :
    e.host.Calls (executorTerminate process e).2.host := by
  unfold executorTerminate
  split
  · exact .refl
  · exact executorKillAndReap_calls _ e

theorem executorSignal_calls (process : ProcessPtr) (signal : Signal) (e : Embla) :
    e.host.Calls (executorSignal process signal e).2.host := by
  have hkill : e.host.Calls (e.host.kill (e.process process).hostId signal).2 := .single (.kill _ signal e.host)
  unfold executorSignal
  simp only
  split
  · exact .refl
  · split <;> exact hkill

theorem emblaSignalGroup_calls (group : GroupPtr) (signal : Signal) (e : Embla) :
    e.host.Calls (emblaSignalGroup group signal e).2.host := by
  have hkill : e.host.Calls (e.host.killGroup (e.group group).hostId signal).2 := .single (.killGroup _ signal e.host)
  unfold emblaSignalGroup executorSignalGroup
  simp only
  split
  · exact .refl
  · split <;> exact hkill

/-! ## Spawning -/

theorem executorSpawn_calls (process : ProcessPtr) (target : Int) (e : Embla) :
    e.host.Calls (executorSpawn process target e).2.host := by
  have hfork : e.host.Calls (e.host.fork target).2 := .single (.fork target e.host)
  unfold executorSpawn
  rcases hx : e.host.fork target with ⟨_ | pid, host⟩ <;> rw [hx] at hfork
  · exact hfork
  · have hset : e.host.Calls host.setpgid.2 := hfork.tail (.setpgid host)
    simp only
    split
    · exact hset.trans (executorKillAndReap_calls pid.pid { e with host := host.setpgid.2 })
    · exact hset

theorem emblaSpawnRollback_calls (group : GroupPtr) (process : ProcessPtr) (processId : Nat) (spawned : Bool)
    (e : Embla) : e.host.Calls (emblaSpawnRollback group process processId spawned e).host := by
  unfold emblaSpawnRollback
  cases spawned with
  | false => exact .refl
  | true => exact executorTerminate_calls process e

theorem emblaSpawnReady_calls (group : GroupPtr) (process : ProcessPtr) (processId : Nat) (e : Embla) :
    e.host.Calls (emblaSpawnReady group process processId e).2.host := by
  unfold emblaSpawnReady
  simp only
  split
  · exact emblaSpawnRollback_calls group process processId true e
  split
  · exact emblaSpawnRollback_calls group process processId true (e.modifyProcess process _)
  · exact .refl

theorem emblaSpawnHost_calls (group : GroupPtr) (process : ProcessPtr) (processId : Nat) (e : Embla) :
    e.host.Calls (emblaSpawnHost group process processId e).2.host := by
  have hspawn := executorSpawn_calls process (e.group group).hostId e
  unfold emblaSpawnHost
  simp only
  split
  · exact hspawn.trans (emblaSpawnRollback_calls group process processId false _)
  split
  · exact hspawn.trans (emblaSpawnReady_calls group process processId (Embla.modifyGroup _ group _))
  · exact hspawn.trans (emblaSpawnReady_calls group process processId _)

theorem emblaSpawnMember_calls (group : GroupPtr) (process : ProcessPtr) (e : Embla) :
    e.host.Calls (emblaSpawnMember group process e).2.host := by
  unfold emblaSpawnMember
  simp only
  split
  · exact emblaSpawnRollback_calls group process _ false e
  · exact emblaSpawnHost_calls group process _ (e.modifyGroup group _)

theorem createProcess_calls (parentId groupId : Nat) (name : String) (heap : Heap Process) (manager : ProcessManager)
    (host : Host) : host.Calls (processManagerCreateProcess parentId groupId name heap manager host).2.2.2 := by
  have hone : host.Calls host.malloc.2 := .single (.malloc host)
  have htwo : host.Calls host.malloc.2.malloc.2 := hone.tail (.malloc _)
  unfold processManagerCreateProcess
  simp only
  split
  · exact .refl
  split
  · exact .refl
  split
  · exact hone
  split <;> exact htwo

theorem createGroup_calls (heap : Heap ProcessGroup) (manager : ProcessGroupManager) (host : Host) :
    host.Calls (processGroupManagerCreateGroup heap manager host).2.2.2 := by
  have hone : host.Calls host.malloc.2 := .single (.malloc host)
  have htwo : host.Calls host.malloc.2.malloc.2 := hone.tail (.malloc _)
  unfold processGroupManagerCreateGroup
  simp only
  split
  · exact .refl
  split
  · exact .refl
  split
  · exact hone
  split <;> exact htwo

theorem emblaSpawnInternal_calls (parentId groupId : Nat) (name : String) (e : Embla) :
    e.host.Calls (emblaSpawnInternal parentId groupId name e).2.host := by
  unfold emblaSpawnInternal
  cases processGroupManagerGet e.groupHeap e.processGroupManager groupId with
  | none => exact .refl
  | some group =>
    simp only
    split
    · exact .refl
    have hcreate := createProcess_calls parentId groupId name e.processHeap e.processManager e.host
    rcases hx : processManagerCreateProcess parentId groupId name e.processHeap e.processManager e.host with
      ⟨_ | process, heap, manager, host⟩ <;> rw [hx] at hcreate
    · exact hcreate
    · exact hcreate.trans (emblaSpawnMember_calls group process
        { e with processHeap := heap, processManager := manager, host := host })

theorem emblaSpawn_calls (name : String) (e : Embla) : e.host.Calls (emblaSpawn name e).2.host := by
  unfold emblaSpawn
  have hcreate := createGroup_calls e.groupHeap e.processGroupManager e.host
  rcases hx : processGroupManagerCreateGroup e.groupHeap e.processGroupManager e.host with
    ⟨_ | group, heap, manager, host⟩ <;> rw [hx] at hcreate
  · exact hcreate
  · simp only
    generalize (Embla.group { e with groupHeap := heap, processGroupManager := manager, host := host } group).id = groupId
    have hall := hcreate.trans (emblaSpawnInternal_calls emblaRootPid groupId name
      { e with groupHeap := heap, processGroupManager := manager, host := host })
    rcases hy : emblaSpawnInternal emblaRootPid groupId name
      { e with groupHeap := heap, processGroupManager := manager, host := host } with ⟨_ | process, e'⟩ <;>
      rw [hy] at hall <;> exact hall

theorem emblaSpawnChild_calls (parent : ProcessPtr) (name : String) (e : Embla) :
    e.host.Calls (emblaSpawnChild parent name e).2.host := by
  unfold emblaSpawnChild
  simp only
  split
  · exact .refl
  · exact emblaSpawnInternal_calls _ _ name e

namespace Embla

variable {e e' : Embla}

/-! ## The loop -/

/-- What the parts of `embla_run` keep. -/
structure LoopKeeps (I : Embla → Prop) : Prop where
  handle : ∀ e, I e → I (emblaHandleNextEvent e)
  dispatch : ∀ e, I e → I (emblaDispatch e).2
  reap : ∀ e p, I e → e.Tracked p → (e.process p).state = .terminated → I (emblaReapFoundProcess p e).2
  state : ∀ e state, I e → I { e with state := state }
  look : ∀ e, I e → I { e with host := e.host.stopRequest.2 }

section Loop

variable {I : Embla → Prop} (hk : LoopKeeps I)

include hk

theorem LoopKeeps.stop (h : I e) : I (emblaStop e) := by
  unfold emblaStop
  split
  · exact h
  · exact hk.state e .stopping h

theorem LoopKeeps.reapChild (h : I e) (parentId : Nat) : I (emblaReapChild parentId e).2.2 := by
  unfold emblaReapChild
  cases hw : processManagerWaitChild e.processHeap e.processManager parentId with
  | none => exact h
  | some p =>
    obtain ⟨hp, -, hdead⟩ := waitChild_some hw
    simp only
    split <;> exact hk.reap e p h hp hdead

theorem LoopKeeps.reapProcess (h : I e) (processId : Nat) : I (emblaReapProcess processId e).2 := by
  unfold emblaReapProcess
  cases hg : processManagerGet e.processHeap e.processManager processId with
  | none => exact h
  | some p =>
    simp only
    split
    · exact h
    · rename_i hdead
      exact hk.reap e p h (get_some hg) (not_not.1 hdead)

theorem LoopKeeps.reapRoot : ∀ (rounds : Nat) (e : Embla), I e → I (reapRootLoop rounds e).2
  | 0, _, h => h
  | rounds + 1, e, h => by
    unfold reapRootLoop
    cases processManagerWaitChild e.processHeap e.processManager emblaRootPid with
    | none => exact h
    | some p =>
      have hreap := hk.reapChild h emblaRootPid
      simp only
      split
      · exact hreap
      · exact LoopKeeps.reapRoot rounds _ hreap

theorem LoopKeeps.shutdown (h : I e) : I (emblaShutdown e).2 := by
  unfold emblaShutdown emblaReapRootChildren
  have hreap := hk.reapRoot (e.processManager.processes.length + 1) e h
  split
  · exact h
  simp only
  split
  · exact hreap
  · exact hk.state _ .stopped hreap

theorem LoopKeeps.round {failed : Bool} (hr : Round e failed e') (h : I e) : I e' := by
  have hhandle := hk.handle e h
  rw [emblaHandleNextEvent_eq] at hhandle
  cases hr with
  | error hw =>
    rw [hw] at hhandle
    exact hhandle
  | quiet hw =>
    rcases hw with hw | hw <;> rw [hw] at hhandle <;> exact hhandle
  | refused event hw =>
    rw [hw] at hhandle
    exact hhandle
  | handled event hw =>
    rw [hw] at hhandle
    exact hhandle
  | stuck event hw =>
    rw [hw] at hhandle
    exact hk.dispatch _ hhandle
  | dispatched event hw =>
    rw [hw] at hhandle
    exact hk.dispatch _ hhandle

theorem LoopKeeps.body (h : I e) : I (emblaRunBody e).2 := by
  obtain ⟨failed, e₁, hround, hx⟩ := emblaRunBody_round e
  have hkept := hk.round hround h
  rw [hx]
  cases failed with
  | true => exact hk.state e₁ .stopped hkept
  | false =>
    unfold roundEnd
    simp only [Bool.false_eq_true, if_false]
    split
    · exact hk.stop hkept
    · exact hkept

theorem LoopKeeps.atCondition (h : I e) : I e.atCondition := by
  unfold Embla.atCondition
  split
  · exact hk.stop (hk.look e h)
  · exact hk.look e h

theorem LoopKeeps.loop : ∀ (fuel : Nat) (e : Embla) (result : Int × Embla), I e → emblaRunLoop fuel e = some result →
    I result.2
  | 0, _, _, _, hx => by cases hx
  | fuel + 1, e, result, h, hx => by
    rw [emblaRunLoop_succ] at hx
    have hcond := hk.atCondition h
    have hbody := hk.body hcond
    split at hx
    · rcases hb : emblaRunBody e.atCondition with ⟨_ | r, e₁⟩ <;> rw [hb] at hx hbody
      · exact LoopKeeps.loop fuel e₁ result hbody hx
      · cases hx
        exact hbody
    split at hx
    · have hshut := hk.shutdown hcond
      split at hx <;> cases hx <;> exact hshut
    · cases hx
      exact hcond

theorem LoopKeeps.run (h : I e) {fuel : Nat} {result : Int × Embla} (hx : emblaRun fuel e = some result) :
    I result.2 := by
  unfold emblaRun at hx
  have hstart := hk.state e .running h
  split at hx
  · cases hx
    exact h
  simp only at hx
  split at hx
  · have hdispatch := hk.dispatch _ hstart
    split at hx
    · cases hx
      exact hk.state _ .stopped hdispatch
    · exact hk.loop fuel _ result hdispatch hx
  · exact hk.loop fuel _ result hstart hx

/-- What the loop, a spawn, a signal, a new cap, a drain and a yield keep, every run keeps. -/
theorem LoopKeeps.runs (hspawn : ∀ e name, I e → I (emblaSpawn name e).2)
    (hchild : ∀ e parent name, I e → e.Tracked parent → I (emblaSpawnChild parent name e).2)
    (hsignal : ∀ e e', I e → e.OnlyHost e' → e.host.Calls e'.host → I e')
    (hcap : ∀ e g maxMembers, I e → I (emblaSetMaxMembers g maxMembers e))
    (hdrain : ∀ e, I e → I (serviceRegistryDrainOneEvent e).2) (hyield : ∀ e, I e → I (emblaYield e).2)
    (h : EmblaRuns e e') (he : I e) : I e' := by
  refine h.holds (fun e e' op hI hv hx => ?_) he
  -- a signal that is not sent is no call
  have hone : ∀ {e : Embla} (process : ProcessPtr) (signal : Signal), I e → I (executorSignal process signal e).2 :=
    fun process signal hI => hsignal _ _ hI (executorSignal_host process signal _) (executorSignal_calls process signal _)
  cases op with
  | setMaxMembers g maxMembers =>
    cases hx
    exact hcap e g maxMembers hI
  | handleEvent =>
    cases hx
    exact hk.handle e hI
  | drainEvent =>
    cases hx
    exact hdrain e hI
  | reapChild parentId =>
    cases hx
    exact hk.reapChild hI parentId
  | reapProcess processId =>
    cases hx
    exact hk.reapProcess hI processId
  | dispatch =>
    cases hx
    exact hk.dispatch e hI
  | yield =>
    cases hx
    exact hyield e hI
  | runtime op =>
    cases op with
    | spawn name =>
      cases hx
      exact hspawn e name hI
    | spawnChild parent name =>
      cases hx
      exact hchild e parent name hI hv
    | terminate process =>
      cases hx
      unfold emblaTerminate
      split
      · exact hI
      · exact hone process .sigterm hI
    | stopProcess process =>
      cases hx
      unfold emblaStopProcess
      split
      · exact hI
      · exact hone process .sigstop hI
    | continueProcess process =>
      cases hx
      unfold emblaContinueProcess
      split
      · exact hI
      · exact hone process .sigcont hI
    | kill process =>
      cases hx
      unfold emblaKill
      split
      · exact hI
      · exact hone process .sigkill hI
    | signalGroup group signal =>
      cases hx
      exact hsignal _ _ hI (emblaSignalGroup_host group signal e) (emblaSignalGroup_calls group signal e)
    | stop =>
      cases hx
      exact hk.stop hI
    | run fuel =>
      simp only [EmblaOp.exec, RuntimeOp.exec, Option.map_eq_some_iff] at hx
      obtain ⟨result, hret, rfl⟩ := hx
      exact hk.run hI hret

end Loop

end Embla

end EmblaOs
