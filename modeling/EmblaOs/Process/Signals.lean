/-
Whom a signal reaches. A signal that is sent to a live process reaches a child that Embla has not
collected. A signal to a group is sent whatever state the members are in: it reaches such a child
while one of them lives, and when all have ended the host may have given the group id away.
-/
import EmblaOs.Process.Children
import EmblaOs.Process.Steady
import EmblaOs.Lib.History
import EmblaOs.Lib.Runs

namespace EmblaOs

open Lib

namespace Embla

variable {e e' : Embla} {p : ProcessPtr} {g : GroupPtr} {event : ChildEvent}

/-! ## Signalling -/

/-- A signal is one call, or none for a process without a pid. -/
theorem executorSignal_trace (p : ProcessPtr) (signal : Signal) (e : Embla) :
    (executorSignal p signal e).2 = e ∨ ∃ answer,
      (executorSignal p signal e).2.host.trace = .killed (e.process p).hostId signal answer :: e.host.trace := by
  unfold executorSignal
  simp only
  split
  · exact .inl rfl
  · refine .inr ⟨e.host.kills.head, ?_⟩
    split <;> rfl

theorem emblaSignalGroup_trace (hid : (e.group g).hostId ≠ emblaInvalidHostPgid) (signal : Signal) :
    (emblaSignalGroup g signal e).2.host.trace =
      .killedGroup (e.group g).hostId signal e.host.kills.head :: e.host.trace := by
  unfold emblaSignalGroup executorSignalGroup
  rw [if_neg hid, if_neg hid]
  simp only
  split <;> rfl

end Embla

/-! ## Runs -/

inductive SignalOp
  | spawn (name : String)
  | spawnChild (parent : ProcessPtr) (name : String)
  | handleEvent
  | drainEvent
  | reapChild (parentId : Nat)
  | reapProcess (processId : Nat)
  | terminate (process : ProcessPtr)
  | kill (process : ProcessPtr)
  | stopProcess (process : ProcessPtr)
  | continueProcess (process : ProcessPtr)
  | signalGroup (group : GroupPtr) (signal : Signal)

namespace SignalOp

def exec : SignalOp → Embla → Option Embla
  | spawn name, e => some (emblaSpawn name e).2
  | spawnChild parent name, e => some (emblaSpawnChild parent name e).2
  | handleEvent, e => some (emblaHandleNextEvent e)
  | drainEvent, e => some (serviceRegistryDrainOneEvent e).2
  | reapChild parentId, e => some (emblaReapChild parentId e).2.2
  | reapProcess processId, e => some (emblaReapProcess processId e).2
  | terminate process, e => some (emblaTerminate process e).2
  | kill process, e => some (emblaKill process e).2
  | stopProcess process, e => some (emblaStopProcess process e).2
  | continueProcess process, e => some (emblaContinueProcess process e).2
  | signalGroup group signal, e => some (emblaSignalGroup group signal e).2

/-- The operation of the runtime it is. -/
def own : SignalOp → EmblaOp
  | spawn name => .runtime (.spawn name)
  | spawnChild parent name => .runtime (.spawnChild parent name)
  | handleEvent => .handleEvent
  | drainEvent => .drainEvent
  | reapChild parentId => .reapChild parentId
  | reapProcess processId => .reapProcess processId
  | terminate process => .runtime (.terminate process)
  | kill process => .runtime (.kill process)
  | stopProcess process => .runtime (.stopProcess process)
  | continueProcess process => .runtime (.continueProcess process)
  | signalGroup group signal => .runtime (.signalGroup group signal)

theorem exec_own (op : SignalOp) (e : Embla) : op.own.exec e = op.exec e := by cases op <;> rfl

/-- The pointers are those of tracked processes and groups. -/
def Valid (e : Embla) : SignalOp → Prop
  | spawnChild parent _ => e.Tracked parent
  | terminate process => e.Tracked process
  | kill process => e.Tracked process
  | stopProcess process => e.Tracked process
  | continueProcess process => e.Tracked process
  | signalGroup group _ => group ∈ e.processGroupManager.groups
  | _ => True

def Spawns : SignalOp → Prop
  | spawn _ => True
  | spawnChild _ _ => True
  | _ => False

def Polls : SignalOp → Prop
  | handleEvent => True
  | drainEvent => True
  | _ => False

/-- Fork hands out no pid of a live process, and no death is taken for that of a dead one. -/
def Clear (e : Embla) (op : SignalOp) : Prop :=
  op.Valid e ∧ (op.Spawns → e.PidFree) ∧ (op.Polls → e.Unmistaken)

/-- Fork hands out no pid of a tracked process. -/
def Fresh (e : Embla) (op : SignalOp) : Prop := op.Valid e ∧ (op.Spawns → e.FreshFork)

end SignalOp

namespace Embla

variable {e e' : Embla} {op : SignalOp}

theorem valid_own (hv : op.Valid e) : op.own.Valid e := by
  cases op with
  | spawnChild parent name => exact hv
  | _ => trivial

theorem Sound.signalOp (h : e.Sound) (hv : op.Valid e) (hx : op.exec e = some e') : e'.Sound :=
  h.exec (valid_own hv) ((op.exec_own e).trans hx)

/-- What an operation does to the tables: only a spawn, a report and a reap change them. -/
inductive Effect (op : SignalOp) (e e' : Embla) : Prop
  | spawned (name : String) (hop : op = .spawn name) (hx : e' = (emblaSpawn name e).2)
  | spawnedChild (parent : ProcessPtr) (name : String) (hop : op = .spawnChild parent name)
      (hx : e' = (emblaSpawnChild parent name e).2)
  | heard (hpolls : op.Polls) (hh : Heard e e')
  | reaped (p : ProcessPtr) (hr : Reaped p e e')
  | hostOnly (hspawns : ¬ op.Spawns) (hpolls : ¬ op.Polls) (ho : e.OnlyHost e')

theorem effect (h : e.Inv) (hx : op.exec e = some e') : Effect op e e' := by
  cases op with
  | spawn name =>
    cases hx
    exact .spawned name rfl rfl
  | spawnChild parent name =>
    cases hx
    exact .spawnedChild parent name rfl rfl
  | handleEvent =>
    cases hx
    exact .heard trivial (handleNext_heard e)
  | drainEvent =>
    cases hx
    exact .heard trivial (drain_heard e)
  | reapChild parentId =>
    cases hx
    rcases emblaReapChild_target h parentId with ⟨-, he⟩ | ⟨p, e₁, -, -, -, he, hr, -⟩ <;> rw [he]
    · exact .hostOnly id id ⟨_, rfl⟩
    · exact .reaped p hr
  | reapProcess processId =>
    cases hx
    rcases emblaReapProcess_target h processId with ⟨-, he⟩ | ⟨p, e₁, -, -, -, he, hr⟩ <;> rw [he]
    · exact .hostOnly id id ⟨_, rfl⟩
    · exact .reaped p hr
  | terminate process =>
    cases hx
    exact .hostOnly id id (emblaTerminate_host process e)
  | kill process =>
    cases hx
    exact .hostOnly id id (emblaKill_host process e)
  | stopProcess process =>
    cases hx
    exact .hostOnly id id (emblaStopProcess_host process e)
  | continueProcess process =>
    cases hx
    exact .hostOnly id id (emblaContinueProcess_host process e)
  | signalGroup group signal =>
    cases hx
    exact .hostOnly id id (emblaSignalGroup_host group signal e)

/-- The calls that an operation adds to the trace. -/
inductive Called (op : SignalOp) (e e' : Embla) : Prop
  | nothing (hx : e'.host.trace = e.host.trace)
  | attempted (hspawns : op.Spawns) (ha : e.host.Attempted e'.host)
  | forked (hspawns : op.Spawns) (child : HostPid) (target : Int) (hf : e.host.forks.head = some child)
      (hx : e'.host.trace = .forked child.pid target :: e.host.trace)
  | reported (hpolls : op.Polls) (event : ChildEvent) (hx : e'.host.trace = .reported event :: e.host.trace)
  | killed (p : ProcessPtr) (hp : e.Alive p) (signal : Signal) (answer : KillAnswer)
      (hx : e'.host.trace = .killed (e.process p).hostId signal answer :: e.host.trace)
  | killedGroup (g : GroupPtr) (hg : g ∈ e.processGroupManager.groups) (signal : Signal) (hop : op = .signalGroup g signal)
      (answer : KillAnswer) (hx : e'.host.trace = .killedGroup (e.group g).hostId signal answer :: e.host.trace)

theorem called_signal (op : SignalOp) {p : ProcessPtr} (hp : e.Alive p) (signal : Signal) :
    Called op e (executorSignal p signal e).2 := by
  rcases executorSignal_trace p signal e with hx | ⟨answer, hx⟩
  · refine .nothing ?_
    rw [hx]
  · exact .killed p hp signal answer hx

theorem called_spawn (h : e.Inv) (name : String) : Called (.spawn name) e (emblaSpawn name e).2 := by
  by_cases hs : e.Spawnable
  · obtain ⟨e', hx, hl⟩ := emblaSpawn_launched h hs name
    rw [hx]
    obtain ⟨child, hf, -, -, htrace⟩ := Spawned.record hl
    exact .forked trivial child _ hf htrace
  · obtain ⟨e', hx, -⟩ := emblaSpawn_failed h hs name
    exact .attempted trivial (emblaSpawn_attempted (by rw [hx]))

theorem called_spawnChild (h : e.Inv) {parent : ProcessPtr} (hp : e.Tracked parent) (name : String) :
    Called (.spawnChild parent name) e (emblaSpawnChild parent name e).2 := by
  obtain ⟨g, -, -, ⟨-, e', hx, hs⟩ | ⟨-, e', hx, -⟩⟩ := emblaSpawnChild_cases h hp name
  · rw [hx]
    obtain ⟨child, hf, -, -, htrace⟩ := hs.record
    exact .forked trivial child _ hf htrace
  · exact .attempted trivial (emblaSpawnChild_attempted (by rw [hx]))

theorem called_heard (hpolls : op.Polls) (hh : Heard e e') : Called op e e' := by
  cases hh with
  | told event hw ht hx => exact .reported hpolls event hx
  | silent hw hx =>
    rw [hx]
    exact .nothing (polled_trace_silent hw)

/-- The guards of the single signals let through live processes only; a group has none. -/
theorem Sound.called (h : e.Sound) (hv : op.Valid e) (hx : op.exec e = some e') : Called op e e' := by
  cases op with
  | spawn name =>
    cases hx
    exact called_spawn h.inv name
  | spawnChild parent name =>
    cases hx
    exact called_spawnChild h.inv hv name
  | handleEvent =>
    cases hx
    exact called_heard trivial (handleNext_heard e)
  | drainEvent =>
    cases hx
    exact called_heard trivial (drain_heard e)
  | reapChild parentId =>
    cases hx
    rcases emblaReapChild_target h.inv parentId with ⟨-, he⟩ | ⟨p, e₁, -, -, -, he, hr, -⟩ <;> rw [he]
    · exact .nothing rfl
    · exact .nothing (by rw [hr.host])
  | reapProcess processId =>
    cases hx
    rcases emblaReapProcess_target h.inv processId with ⟨-, he⟩ | ⟨p, e₁, -, -, -, he, hr⟩ <;> rw [he]
    · exact .nothing rfl
    · exact .nothing (by rw [hr.host])
  | terminate p =>
    cases hx
    unfold emblaTerminate
    split
    · exact .nothing rfl
    · rename_i hlive
      exact called_signal _ ⟨hv, hlive⟩ .sigterm
  | kill p =>
    cases hx
    unfold emblaKill
    split
    · exact .nothing rfl
    · rename_i hlive
      exact called_signal _ ⟨hv, hlive⟩ .sigkill
  | stopProcess p =>
    cases hx
    unfold emblaStopProcess
    split
    · exact .nothing rfl
    · rename_i hlive
      exact called_signal _ ⟨hv, fun hc => hlive (.inl hc)⟩ .sigstop
  | continueProcess p =>
    cases hx
    unfold emblaContinueProcess
    split
    · exact .nothing rfl
    · -- a stopped process has not ended
      rename_i hstopped
      refine called_signal _ ⟨hv, ?_⟩ .sigcont
      rw [not_not.1 hstopped]
      exact fun hc => by cases hc
  | signalGroup g signal =>
    cases hx
    exact .killedGroup g hv signal rfl _ (emblaSignalGroup_trace (h.formed g hv).hostId signal)

theorem Covered.exec (h : e.Covered) (hs : e.Sound) (hop : op.Clear e) (hx : op.exec e = some e') : e'.Covered := by
  obtain ⟨hv, hfree, hclear⟩ := hop
  cases effect hs.inv hx with
  | spawned name hop he =>
    subst hop he
    exact h.spawn hs.inv (hfree trivial) name
  | spawnedChild parent name hop he =>
    subst hop he
    exact h.spawnChild hs (hfree trivial) hv name
  | heard hpolls hh => exact h.heard hs.inv (hclear hpolls) hh
  | reaped p hr => exact h.reaped hr
  | hostOnly hspawns hpolls ho =>
    -- what is called then is a signal at most
    refine h.called ho fun pid group => ?_
    cases hs.called hv hx with
    | nothing ht => rw [ht]
    | attempted hc => exact absurd hc hspawns
    | forked hc => exact absurd hc hspawns
    | reported hc => exact absurd hc hpolls
    | killed p hp signal answer ht =>
      rw [ht]
      exact hasChild_cons rfl
    | killedGroup g hg signal hop answer ht =>
      rw [ht]
      exact hasChild_cons rfl

end Embla

/-! ## Single processes -/

/-- A signal to a single process reaches a child that Embla has not collected. -/
def HostCall.OnTarget (earlier : List HostCall) : HostCall → Prop
  | .killed pid _ _ => Uncollected earlier pid
  | _ => True

/-- The one process a failed spawn kills is the child it has just forked. -/
theorem Host.Attempted.onTarget {h h' : Host} (ha : h.Attempted h') (ht : Each HostCall.OnTarget h.trace) :
    Each HostCall.OnTarget h'.trace := by
  rcases ha with hx | ⟨child, target, hf, hx⟩ <;> rw [hx]
  · exact ht
  · have hkill : Uncollected (.forked child.pid target :: h.trace) child.pid := ⟨_, hasChild_forked ..⟩
    unfold takingBack
    split
    · exact ⟨hkill, trivial, ht⟩
    split
    · exact ⟨trivial, hkill, trivial, ht⟩
    · exact ⟨hkill, trivial, ht⟩

namespace Embla

variable {e e' : Embla} {p : ProcessPtr} {op : SignalOp}

theorem Covered.onTarget (h : e.Covered) (hs : e.Sound) (hv : op.Valid e) (hx : op.exec e = some e')
    (ht : Each HostCall.OnTarget e.host.trace) : Each HostCall.OnTarget e'.host.trace := by
  cases hs.called hv hx with
  | nothing hx =>
    rw [hx]
    exact ht
  | attempted hspawns ha => exact ha.onTarget ht
  | forked hspawns child target hf hx =>
    rw [hx]
    exact ⟨trivial, ht⟩
  | reported hpolls event hx =>
    rw [hx]
    exact ⟨trivial, ht⟩
  | killed p hp signal answer hx =>
    rw [hx]
    exact ⟨h.uncollected hs.inv hp, ht⟩
  | killedGroup g hg signal hop answer hx =>
    rw [hx]
    exact ⟨trivial, ht⟩

/-! ## Pids of their own -/

/-- Where all tracked processes differ in their pids, the lookup finds the one a death is meant for. -/
theorem DistinctPids.unmistaken (h : e.DistinctPids) : e.Unmistaken := by
  intro event _ _ q hget hdead p hp hpid
  obtain ⟨hq, hqid, -⟩ := getByHostId_some hget
  have hqp := h q p hq hp.1 (hqid.trans hpid.symm)
  subst hqp
  exact hp.2 hdead

theorem FreshFork.pidFree (h : e.FreshFork) : e.PidFree := fun child hf p hp => h child hf p hp.1

theorem DistinctPids.onlyHost (h : e.DistinctPids) (ho : e.OnlyHost e') : e'.DistinctPids := by
  obtain ⟨host, rfl⟩ := ho
  exact h

theorem DistinctPids.heard (h : e.DistinctPids) (hh : Heard e e') : e'.DistinctPids := by
  cases hh with
  | told event hw ht =>
    refine h.congr (fun p hp => ?_) fun p _ => ht.handled.hostId p
    rwa [ht.handled.tracked] at hp
  | silent hw hx =>
    rw [hx]
    exact h.onlyHost ⟨_, rfl⟩

theorem DistinctPids.spawn (h : e.DistinctPids) (hinv : e.Inv) (hfresh : e.FreshFork) (name : String) :
    (emblaSpawn name e).2.DistinctPids := by
  by_cases hs : e.Spawnable
  · obtain ⟨e', hx, hl⟩ := emblaSpawn_launched hinv hs name
    rw [hx]
    have hnew : e.withNewGroup.DistinctPids := h
    exact hnew.spawned (hinv.withNewGroup hs.1.groupRoom) hfresh hl
  · obtain ⟨e', hx, hsame, hproc, -⟩ := emblaSpawn_failed hinv hs name
    rw [hx]
    exact h.unspawned hinv hsame hproc

theorem DistinctPids.spawnChild (h : e.DistinctPids) (hinv : e.Inv) (hfresh : e.FreshFork) {parent : ProcessPtr}
    (hp : e.Tracked parent) (name : String) : (emblaSpawnChild parent name e).2.DistinctPids := by
  obtain ⟨g, -, -, ⟨-, e', hx, hs⟩ | ⟨-, e', hx, hu⟩⟩ := emblaSpawnChild_cases hinv hp name <;> rw [hx]
  · exact h.spawned hinv hfresh hs
  · exact h.unspawned hinv (hu.sameTables hinv) hu.others

theorem DistinctPids.exec (h : e.DistinctPids) (hinv : e.Inv) (hop : op.Fresh e) (hx : op.exec e = some e') :
    e'.DistinctPids := by
  obtain ⟨hv, hfresh⟩ := hop
  cases effect hinv hx with
  | spawned name hop he =>
    subst hop he
    exact h.spawn hinv (hfresh trivial) name
  | spawnedChild parent name hop he =>
    subst hop he
    exact h.spawnChild hinv (hfresh trivial) hv name
  | heard hpolls hh => exact h.heard hh
  | reaped p hr => exact h.reaped hr
  | hostOnly hspawns hpolls ho => exact h.onlyHost ho

end Embla

theorem SignalOp.Fresh.clear {e : Embla} {op : SignalOp} (h : op.Fresh e) (hd : e.DistinctPids) : op.Clear e :=
  ⟨h.1, fun hs => (h.2 hs).pidFree, fun _ => hd.unmistaken⟩

/-! ## Groups -/

/-- A signal to a group reaches a host group that a child Embla has not collected is in. -/
def HostCall.OnHeldGroup (earlier : List HostCall) : HostCall → Prop
  | .killedGroup group _ _ => ∃ pid, HasChild earlier pid group
  | _ => True

theorem Host.Attempted.onHeldGroup {h h' : Host} (ha : h.Attempted h') (ht : Each HostCall.OnHeldGroup h.trace) :
    Each HostCall.OnHeldGroup h'.trace := by
  rcases ha with hx | ⟨child, target, hf, hx⟩ <;> rw [hx]
  · exact ht
  · unfold takingBack
    split
    · exact ⟨trivial, trivial, ht⟩
    split
    · exact ⟨trivial, trivial, trivial, ht⟩
    · exact ⟨trivial, trivial, ht⟩

namespace Embla

/-- Some member of the group has not ended. -/
def HasLiveMember (e : Embla) (g : GroupPtr) : Prop := ∃ p ∈ (e.group g).processes, (e.process p).state ≠ .terminated

/-- Some member of the group has not ended, and its uncollected child is in the group's host group. -/
def HeldByMember (e : Embla) (g : GroupPtr) : Prop :=
  ∃ p ∈ (e.group g).processes, (e.process p).state ≠ .terminated ∧
    HasChild e.host.trace (e.process p).hostId (e.group g).hostId

end Embla

/-- Clear, and a group is signalled only while one of its members lives: the question that
`embla_terminate` and `embla_kill` ask of a process and `embla_signal_group` asks of nobody. -/
def SignalOp.Guarded (e : Embla) (op : SignalOp) : Prop :=
  op.Clear e ∧ ∀ g signal, op = .signalGroup g signal → e.HasLiveMember g

namespace Embla

variable {e e' : Embla} {g : GroupPtr} {op : SignalOp}

theorem Covered.held_iff (h : e.Covered) (hg : g ∈ e.processGroupManager.groups) : e.HeldByMember g ↔ e.HasLiveMember g := by
  constructor
  · rintro ⟨p, hp, hlive, -⟩
    exact ⟨p, hp, hlive⟩
  · rintro ⟨p, hp, hlive⟩
    exact ⟨p, hp, hlive, h.child g hg p hp hlive⟩

theorem Covered.onHeldGroup (h : e.Covered) (hs : e.Sound) (hop : op.Guarded e) (hx : op.exec e = some e')
    (ht : Each HostCall.OnHeldGroup e.host.trace) : Each HostCall.OnHeldGroup e'.host.trace := by
  cases hs.called hop.1.1 hx with
  | nothing hx =>
    rw [hx]
    exact ht
  | attempted hspawns ha => exact ha.onHeldGroup ht
  | forked hspawns child target hf hx =>
    rw [hx]
    exact ⟨trivial, ht⟩
  | reported hpolls event hx =>
    rw [hx]
    exact ⟨trivial, ht⟩
  | killed p hp signal answer hx =>
    rw [hx]
    exact ⟨trivial, ht⟩
  | killedGroup g hg signal hsignal answer hx =>
    obtain ⟨p, hp, -, hchild⟩ := (h.held_iff hg).2 (hop.2 g signal hsignal)
    rw [hx]
    exact ⟨⟨_, hchild⟩, ht⟩

theorem covered_of_runs {host : Host} (h : Runs SignalOp.exec SignalOp.Clear (emblaCreate host) e) :
    e.Sound ∧ e.Covered := by
  refine h.holds (I := fun e => e.Sound ∧ e.Covered) (fun e e' op hI hop hx => ?_)
    ⟨sound_create host, covered_create host⟩
  exact ⟨hI.1.signalOp hop.1 hx, hI.2.exec hI.1 hop hx⟩

/-- In a run that signals a group only while a member lives, every group signal reaches a host group
that a child of Embla holds. In any run, a signal to a tracked group is sent whatever state the
members are in, and a member holds the host group exactly when one of them lives. -/
theorem group_signals_reach_held_groups {host : Host} (ht : host.trace = []) :
    (Runs SignalOp.exec SignalOp.Guarded (emblaCreate host) e →
      ∀ later group signal answer earlier, e.host.trace = later ++ .killedGroup group signal answer :: earlier →
        ∃ pid, HasChild earlier pid group) ∧
    (Runs SignalOp.exec SignalOp.Clear (emblaCreate host) e → ∀ g ∈ e.processGroupManager.groups, ∀ signal,
      (∃ answer, (emblaSignalGroup g signal e).2.host.trace =
        .killedGroup (e.group g).hostId signal answer :: e.host.trace) ∧
      (e.HeldByMember g ↔ e.HasLiveMember g)) := by
  constructor
  · intro h later group signal answer earlier hx
    have hall : e.Sound ∧ e.Covered ∧ Each HostCall.OnHeldGroup e.host.trace := by
      refine h.holds (I := fun e => e.Sound ∧ e.Covered ∧ Each HostCall.OnHeldGroup e.host.trace)
        (fun e e' op hI hop hx => ?_) ⟨sound_create host, covered_create host, ?_⟩
      · obtain ⟨hs, hc, hheld⟩ := hI
        exact ⟨hs.signalOp hop.1.1 hx, hc.exec hs hop.1 hx, hc.onHeldGroup hs hop hx hheld⟩
      · rw [show (emblaCreate host).host.trace = [] from ht]
        exact each_nil
    have hheld := hall.2.2
    rw [hx] at hheld
    exact hheld.at
  · intro h g hg signal
    obtain ⟨hs, hc⟩ := covered_of_runs h
    exact ⟨⟨_, emblaSignalGroup_trace (hs.formed g hg).hostId signal⟩, hc.held_iff hg⟩

end Embla

/-- A group whose only member has ended and is not reaped yet. -/
def allEnded : Embla := emblaHandleNextEvent oneExiting

theorem allEnded_run : Runs SignalOp.exec SignalOp.Clear (emblaCreate (.generous [.event (exitOf 0 0)] [] 0)) allEnded := by
  have hfree : (emblaCreate (.generous [.event (exitOf 0 0)] [] 0)).PidFree :=
    fun _ _ p hp => absurd hp.1 List.not_mem_nil
  have hclear : oneExiting.Unmistaken := by
    -- the one process lives, so no lookup finds a dead one
    intro event _ _ q hget hdead
    obtain ⟨hq, -⟩ := getByHostId_some hget
    have htable : oneExiting.processManager.processes = [0] := by decide +kernel
    have hlive : (oneExiting.process 0).state = .ready := by decide +kernel
    rw [htable, List.mem_singleton] at hq
    rw [hq, hlive] at hdead
    cases hdead
  exact ((Runs.refl _).next (.spawn "worker") ⟨trivial, fun _ => hfree, fun hc => hc.elim⟩ rfl).next
    .handleEvent ⟨trivial, fun hc => hc.elim, fun _ => hclear⟩ rfl

/-- Its host group is killed all the same, although Embla has no child left that could hold the id. -/
theorem group_signal_hits_stale_group :
    Runs SignalOp.exec SignalOp.Clear (emblaCreate (.generous [.event (exitOf 0 0)] [] 0)) allEnded ∧
    0 ∈ allEnded.processGroupManager.groups ∧ (allEnded.group 0).processes = [0] ∧
    (allEnded.process 0).state = .terminated ∧
    (emblaSignalGroup 0 .sigkill allEnded).2.host.trace = .killedGroup 1 .sigkill .ok :: allEnded.host.trace ∧
    ∀ pid group, ¬ HasChild allEnded.host.trace pid group := by
  refine ⟨allEnded_run, by decide +kernel, by decide +kernel, by decide +kernel, by decide +kernel, fun pid group hc => ?_⟩
  have htrace : allEnded.host.trace = [.reported (exitOf 0 0), .forked 1 0] := by decide +kernel
  rw [htrace] at hc
  by_cases hpid : 1 = pid
  · subst hpid
    cases hc
  · rw [hasChild_report_other fun h => hpid h.1, hasChild_fork_other hpid] at hc
    cases hc

/-- The signal of a live worker's group reaches its child; once it has ended no member holds the group. -/
theorem group_signals_reach_held_groups_of_live_worker :
    (∃ pid, HasChild oneExiting.host.trace pid 1) ∧ ¬ allEnded.HeldByMember 0 := by
  have hrun : Runs SignalOp.exec SignalOp.Guarded (emblaCreate (.generous [.event (exitOf 0 0)] [] 0))
      (emblaSignalGroup 0 .sigstop oneExiting).2 := by
    refine ((Runs.refl _).next (.spawn "worker") ⟨⟨trivial, fun _ _ _ p hp => absurd hp.1 List.not_mem_nil,
      fun hc => hc.elim⟩, fun _ _ hc => by cases hc⟩ rfl).next (.signalGroup 0 .sigstop) ⟨⟨?_, fun hc => hc.elim, fun hc => hc.elim⟩, fun g signal hg => ?_⟩ rfl
    · show 0 ∈ oneExiting.processGroupManager.groups
      decide +kernel
    · cases hg
      refine ⟨0, ?_, ?_⟩
      · show 0 ∈ (oneExiting.group 0).processes
        decide +kernel
      · show (oneExiting.process 0).state ≠ .terminated
        decide +kernel
  constructor
  · exact (Embla.group_signals_reach_held_groups rfl).1 hrun [] 1 .sigstop .ok _ (by decide +kernel)
  · obtain ⟨-, hheld⟩ := (Embla.group_signals_reach_held_groups rfl).2 allEnded_run 0 (by decide +kernel) .sigkill
    rw [hheld]
    rintro ⟨p, hp, hlive⟩
    have hmembers : (allEnded.group 0).processes = [0] := by decide +kernel
    have hdead : (allEnded.process 0).state = .terminated := by decide +kernel
    rw [hmembers, List.mem_singleton] at hp
    rw [hp] at hlive
    exact hlive hdead

end EmblaOs
