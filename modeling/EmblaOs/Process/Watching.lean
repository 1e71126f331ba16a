/-
Which process an event is for. The host tells only a pid, and may hand a pid out again as soon as it
has reported the death of the child that had it. Beside the runtime runs a record of the processes
whose child has not been waited for yet. A death is meant for the one among these with the reported
pid; the lookup takes the first process of the table with that pid, dead or alive. As long as it does
not hit a dead one, every death reaches its process and what a dead process ended with stays.
-/
import EmblaOs.Process.Orphans

namespace EmblaOs

open Lib

/-- What a process ended with, and whether it has ended, is the same. -/
def Process.SameEnd (r r' : Process) : Prop :=
  r'.exitCode = r.exitCode ∧ r'.termSignal = r.termSignal ∧ (r'.state = .terminated ↔ r.state = .terminated)

theorem Process.SameEnd.refl (r : Process) : r.SameEnd r := ⟨rfl, rfl, Iff.rfl⟩

namespace Embla

/-- What the report `event` does to the processes: it is noted for the process the lookup finds, if
it is a death, and for no other. -/
structure Told (event : ChildEvent) (e e' : Embla) : Prop where
  handled : Handled e e'
  others : ∀ q, ¬ (event.status.Death ∧
    processManagerGetByHostId e.processHeap e.processManager event.hostId.pid = some q) →
    (e.process q).SameEnd (e'.process q)
  applied : ∀ p, event.status.Death →
    processManagerGetByHostId e.processHeap e.processManager event.hostId.pid = some p →
    (e'.process p).exitCode = (WaitStatus.note event.status (e.process p)).exitCode ∧
    (e'.process p).termSignal = (WaitStatus.note event.status (e.process p)).termSignal ∧
    ((e.process p).state ≠ .created → (e'.process p).state = .terminated)

variable {e e' : Embla} {event : ChildEvent}

theorem emblaHandleChildEvent_told (event : ChildEvent) (e : Embla) : Told event e (emblaHandleChildEvent event e).2 := by
  have hhandled := emblaHandleChildEvent_handled event e
  rcases emblaHandleChildEvent_cases event e with ⟨hnone, hx⟩ | ⟨p, hget, hcase⟩
  · rw [hx] at hhandled ⊢
    exact ⟨hhandled, fun q _ => .refl _, fun q _ hq => by rw [hnone] at hq; cases hq⟩
  rcases hcase with ⟨hother, hx⟩ | ⟨next, hnext, hdeath, hx⟩ | ⟨hdeath, hx⟩ <;> rw [hx] at hhandled ⊢
  · refine ⟨hhandled, fun q _ => .refl _, fun q hd _ => ?_⟩
    rw [hother] at hd
    exact hd.elim
  · -- a stop or a continue moves between live states
    refine ⟨hhandled, fun q _ => ?_, fun q hd _ => absurd hd hdeath⟩
    rcases eq_or_ne q p with rfl | hne
    · rw [process_modifyProcess_self, processTransition_eq]
      refine ⟨rfl, rfl, ?_⟩
      simp only
      split
      · rename_i hcan
        generalize (e.process q).state = s at hcan
        constructor
        · intro hc
          rcases hnext with rfl | rfl <;> cases hc
        · intro hc
          rw [hc] at hcan
          cases hcan
      · exact Iff.rfl
    · rw [process_modifyProcess_of_ne e _ hne]
      exact .refl _
  · have hcode := emblaHandleTerminated_field Process.exitCode (fun _ _ _ => rfl) (fun _ => rfl) p event.usage
      (e.modifyProcess p (WaitStatus.note event.status))
    have hsignal := emblaHandleTerminated_field Process.termSignal (fun _ _ _ => rfl) (fun _ => rfl) p event.usage
      (e.modifyProcess p (WaitStatus.note event.status))
    have hstate := emblaHandleTerminated_state p event.usage (e.modifyProcess p (WaitStatus.note event.status))
    refine ⟨hhandled, fun q hq => ?_, fun q _ hq => ?_⟩
    · have hne : q ≠ p := by
        rintro rfl
        exact hq ⟨hdeath, hget⟩
      unfold Process.SameEnd
      rw [hcode, hsignal, hstate, if_neg fun hc => hne hc.1, process_modifyProcess_of_ne e _ hne]
      exact ⟨rfl, rfl, Iff.rfl⟩
    · rw [hget] at hq
      cases hq
      have hkeeps : (WaitStatus.note event.status (e.process p)).state = (e.process p).state :=
        (WaitStatus.note_keeps event.status (e.process p)).2.2.2.1
      rw [hcode, hsignal, hstate, process_modifyProcess_self]
      refine ⟨rfl, rfl, fun hstarted => ?_⟩
      rw [hkeeps]
      by_cases hdead : (e.process p).state = .terminated
      · rw [hdead]
        exact ite_self _
      · exact if_pos ⟨rfl, (canTransition_terminated _).2 ⟨hstarted, hdead⟩⟩

theorem drainRecord_note (platform : Platform) (event : ChildEvent) (r : Process) :
    (drainRecord platform event r).exitCode = (WaitStatus.note event.status r).exitCode ∧
      (drainRecord platform event r).termSignal = (WaitStatus.note event.status r).termSignal := by
  unfold drainRecord WaitStatus.note
  cases event.status <;> simp [processTransition_eq, executorApplyRusage]

theorem drainEvent_told (event : ChildEvent) (e : Embla) (hhandled : Handled e (drainEvent event e)) :
    Told event e (drainEvent event e) := by
  rw [drainEvent_eq] at hhandled ⊢
  cases hget : processManagerGetByHostId e.processHeap e.processManager event.hostId.pid with
  | none =>
    rw [hget] at hhandled
    exact ⟨hhandled, fun q _ => .refl _, fun q _ hq => by rw [hget] at hq; cases hq⟩
  | some p =>
    rw [hget] at hhandled
    refine ⟨hhandled, fun q hq => ?_, fun q hd hq => ?_⟩
    · rcases eq_or_ne q p with rfl | hne
      · have hd : ¬ event.status.Death := fun hd => hq ⟨hd, hget⟩
        simp only
        rw [process_modifyProcess_self, drainRecord_alive _ _ hd]
        exact .refl _
      · simp only
        rw [process_modifyProcess_of_ne e _ hne]
        exact .refl _
    · rw [hget] at hq
      cases hq
      obtain ⟨h1, h2⟩ := drainRecord_note e.host.platform event (e.process p)
      simp only
      rw [process_modifyProcess_self]
      exact ⟨h1, h2, fun hstarted => drainRecord_state_death _ hd hstarted⟩

/-- The poll itself touches no process. -/
theorem Told.polled (h : Told event e.polled e') : Told event e e' := by
  have hpolled : Handled e e.polled := .onlyHost ⟨_, rfl⟩
  exact ⟨hpolled.after rfl h.handled, h.others, h.applied⟩

theorem handleNext_told (hw : e.host.wait4s.head = .event event) : Told event e (emblaHandleNextEvent e) := by
  rw [emblaHandleNextEvent_eq, hw]
  exact (emblaHandleChildEvent_told event e.polled).polled

theorem drain_eq (hw : e.host.wait4s.head = .event event) :
    (serviceRegistryDrainOneEvent e).2 = drainEvent event e.polled := by
  unfold serviceRegistryDrainOneEvent
  rw [executorPollAny_eq, hw]
  rfl

theorem drain_told (hw : e.host.wait4s.head = .event event) : Told event e (serviceRegistryDrainOneEvent e).2 := by
  rw [drain_eq hw]
  refine (drainEvent_told event e.polled ?_).polled
  have hdrain := drain_handled e
  rw [drain_eq hw] at hdrain
  exact ⟨hdrain.manager, hdrain.groupHeap, hdrain.groupManager, hdrain.next, hdrain.id, hdrain.groupId, hdrain.hostId,
    hdrain.parentId, hdrain.started, hdrain.scheduler, hdrain.state⟩

/-- Without a report nothing is told. -/
theorem handleNext_silent (hw : ∀ event, e.host.wait4s.head ≠ .event event) : emblaHandleNextEvent e = e.polled := by
  rw [emblaHandleNextEvent_eq]
  rcases Wait4Answer.silent hw with h | h | h <;> rw [h]

theorem drain_silent (hw : ∀ event, e.host.wait4s.head ≠ .event event) :
    (serviceRegistryDrainOneEvent e).2 = e.polled := by
  rcases serviceRegistryDrainOneEvent_cases e with ⟨-, hx⟩ | ⟨event, p, ⟨event', hc, -⟩, -⟩
  · exact hx
  · exact absurd hc (hw event')

theorem emblaHandleTerminated_trace (p : ProcessPtr) (usage : Rusage) (e : Embla) :
    (emblaHandleTerminated p usage e).2.host.trace = e.host.trace := by
  rcases emblaHandleTerminated_cases p usage e with ⟨-, hx⟩ | ⟨-, ⟨-, hx⟩ | ⟨-, -, hx⟩ | ⟨-, -, ⟨-, hx⟩ | ⟨-, hx⟩⟩⟩ <;>
    rw [hx] <;> rfl

theorem emblaHandleChildEvent_trace (event : ChildEvent) (e : Embla) :
    (emblaHandleChildEvent event e).2.host.trace = e.host.trace := by
  rcases emblaHandleChildEvent_cases event e with ⟨-, hx⟩ | ⟨p, -, ⟨-, hx⟩ | ⟨next, -, -, hx⟩ | ⟨-, hx⟩⟩ <;> rw [hx]
  · rfl
  · exact emblaHandleTerminated_trace ..

theorem polled_trace (hw : e.host.wait4s.head = .event event) : e.polled.host.trace = .reported event :: e.host.trace := by
  unfold polled Host.wait4
  rw [hw]

theorem polled_trace_silent (hw : ∀ event, e.host.wait4s.head ≠ .event event) : e.polled.host.trace = e.host.trace := by
  unfold polled Host.wait4
  rcases Wait4Answer.silent hw with h | h | h <;> rw [h]

theorem handleNext_trace (hw : e.host.wait4s.head = .event event) :
    (emblaHandleNextEvent e).host.trace = .reported event :: e.host.trace := by
  rw [emblaHandleNextEvent_eq, hw]
  exact (emblaHandleChildEvent_trace event e.polled).trans (polled_trace hw)

theorem drain_trace (hw : e.host.wait4s.head = .event event) :
    (serviceRegistryDrainOneEvent e).2.host.trace = .reported event :: e.host.trace := by
  rw [drain_eq hw, drainEvent_eq, ← polled_trace hw]
  cases processManagerGetByHostId e.polled.processHeap e.polled.processManager event.hostId.pid <;> rfl

/-- What either loop makes of the next answer: it notes the report there is, and without one it has
only polled. -/
inductive Heard (e e' : Embla) : Prop
  | told (event : ChildEvent) (hw : e.host.wait4s.head = .event event) (ht : Told event e e')
      (hx : e'.host.trace = .reported event :: e.host.trace)
  | silent (hw : ∀ event, e.host.wait4s.head ≠ .event event) (hx : e' = e.polled)

theorem heard_of (htold : ∀ event, e.host.wait4s.head = .event event →
      Told event e e' ∧ e'.host.trace = .reported event :: e.host.trace)
    (hsilent : (∀ event, e.host.wait4s.head ≠ .event event) → e' = e.polled) : Heard e e' := by
  by_cases hw : ∃ event, e.host.wait4s.head = .event event
  · obtain ⟨event, hw⟩ := hw
    obtain ⟨ht, hx⟩ := htold event hw
    exact .told event hw ht hx
  · have hno : ∀ event, e.host.wait4s.head ≠ .event event := fun event he => hw ⟨event, he⟩
    exact .silent hno (hsilent hno)

theorem handleNext_heard (e : Embla) : Heard e (emblaHandleNextEvent e) :=
  heard_of (fun _ hw => ⟨handleNext_told hw, handleNext_trace hw⟩) handleNext_silent

theorem drain_heard (e : Embla) : Heard e (serviceRegistryDrainOneEvent e).2 :=
  heard_of (fun _ hw => ⟨drain_told hw, drain_trace hw⟩) drain_silent

/-- A dispatch touches states only, and ends nobody. -/
theorem dispatch_sameEnd (h : e.Inv) :
    Rescheduled e (emblaDispatch e).2 ∧ ∀ q, (e.process q).SameEnd ((emblaDispatch e).2.process q) := by
  obtain ⟨l, hl, -⟩ := h.queue
  rcases emblaDispatch_cases hl with hx | ⟨p, rest, s, -, -, hcan, hx, -⟩ | ⟨p, rest, s, -, -, -, hx, -⟩ <;> rw [hx]
  · exact ⟨rescheduled_scheduler e e.scheduler, fun q => .refl _⟩
  · refine ⟨rescheduled_started e p s, fun q => ?_⟩
    rcases eq_or_ne q p with rfl | hne
    · rw [started_self]
      refine ⟨rfl, rfl, iff_of_false (fun hc => by cases hc) fun hc => ?_⟩
      rw [hc] at hcan
      cases hcan
    · rw [started_other e s hne]
      exact .refl _
  · exact ⟨rescheduled_scheduler e s, fun q => .refl _⟩

end Embla

/-! ## The children that are out -/

/-- The runtime and the processes whose child has not been waited for. -/
structure Watched where
  embla : Embla
  out : List ProcessPtr

inductive WatchOp
  | spawn (name : String)
  | spawnChild (parent : ProcessPtr) (name : String)
  | dispatch
  | handleEvent
  | drainEvent
  | reapChild (parentId : Nat)
  | reapProcess (processId : Nat)

namespace Watched

/-- The children still out after the next poll: a reported death has been waited for. -/
def heard (x : Watched) : List ProcessPtr :=
  match x.embla.host.wait4s.head with
  | .event event =>
    if event.status.Death then x.out.filter fun p => (x.embla.process p).hostId ≠ event.hostId.pid else x.out
  | _ => x.out

end Watched

/-- Every operation returns; a spawn that succeeds puts one more child out. -/
def WatchOp.exec : WatchOp → Watched → Option Watched
  | .spawn name, x => some ⟨(emblaSpawn name x.embla).2, (emblaSpawn name x.embla).1.toList ++ x.out⟩
  | .spawnChild parent name, x =>
    some ⟨(emblaSpawnChild parent name x.embla).2, (emblaSpawnChild parent name x.embla).1.toList ++ x.out⟩
  | .dispatch, x => some ⟨(emblaDispatch x.embla).2, x.out⟩
  | .handleEvent, x => some ⟨emblaHandleNextEvent x.embla, x.heard⟩
  | .drainEvent, x => some ⟨(serviceRegistryDrainOneEvent x.embla).2, x.heard⟩
  | .reapChild parentId, x => some ⟨(emblaReapChild parentId x.embla).2.2, x.out⟩
  | .reapProcess processId, x => some ⟨(emblaReapProcess processId x.embla).2, x.out⟩

/-- The operation of the runtime it is. -/
def WatchOp.own : WatchOp → EmblaOp
  | .spawn name => .runtime (.spawn name)
  | .spawnChild parent name => .runtime (.spawnChild parent name)
  | .dispatch => .dispatch
  | .handleEvent => .handleEvent
  | .drainEvent => .drainEvent
  | .reapChild parentId => .reapChild parentId
  | .reapProcess processId => .reapProcess processId

/-- Fork does not hand out the pid of a child that is out. -/
def Watched.PidFree (x : Watched) : Prop :=
  ∀ child, x.embla.host.forks.head = some child → ∀ p ∈ x.out, (x.embla.process p).hostId ≠ child.pid

/-- What the host guarantees, and tracked parents. -/
def WatchOp.Lawful (x : Watched) : WatchOp → Prop
  | .spawn _ => x.PidFree
  | .spawnChild parent _ => x.PidFree ∧ x.embla.Tracked parent
  | _ => True

/-- The death that is reported next, if one is, does not lead the lookup to a process that is dead. -/
def Watched.Certain (x : Watched) : Prop :=
  ∀ event, x.embla.host.wait4s.head = .event event → event.status.Death →
    ∀ p, processManagerGetByHostId x.embla.processHeap x.embla.processManager event.hostId.pid = some p →
      (x.embla.process p).state ≠ .terminated

/-- Lawful, and no event goes astray. -/
def WatchOp.Sure (x : Watched) (op : WatchOp) : Prop :=
  op.Lawful x ∧ ((op = .handleEvent ∨ op = .drainEvent) → x.Certain)

namespace Watched

/-- The processes out are those of the table that live, and their pids differ. -/
structure Matched (x : Watched) : Prop where
  tracked : ∀ p ∈ x.out, x.embla.Tracked p
  live : ∀ p, x.embla.Tracked p → (p ∈ x.out ↔ (x.embla.process p).state ≠ .terminated)
  pids : ∀ p ∈ x.out, ∀ q ∈ x.out, (x.embla.process p).hostId = (x.embla.process q).hostId → p = q

/-- A runtime just created. -/
def start (host : Host) : Watched := ⟨emblaCreate host, []⟩

theorem matched_start (host : Host) : (start host).Matched :=
  ⟨fun _ hp => absurd hp List.not_mem_nil, fun _ hp => absurd hp List.not_mem_nil,
    fun _ hp => absurd hp List.not_mem_nil⟩

variable {x y : Watched} {p : ProcessPtr} {event : ChildEvent}

/-- The report, if it is about a child that is out, does not lead the lookup to a dead process. -/
def Finds (x : Watched) (event : ChildEvent) : Prop :=
  ∀ p ∈ x.out, (x.embla.process p).hostId = event.hostId.pid →
    ∀ q, processManagerGetByHostId x.embla.processHeap x.embla.processManager event.hostId.pid = some q →
      (x.embla.process q).state ≠ .terminated

theorem Certain.finds (hc : x.Certain) (hw : x.embla.host.wait4s.head = .event event) (hd : event.status.Death) :
    x.Finds event := fun _ _ _ => hc event hw hd

/-- The process a report of this pid is for is the one the lookup finds. -/
theorem Matched.lookup (h : x.Matched) (hf : x.Finds event) (hout : p ∈ x.out)
    (hpid : (x.embla.process p).hostId = event.hostId.pid) :
    processManagerGetByHostId x.embla.processHeap x.embla.processManager event.hostId.pid = some p := by
  have hvalid : event.hostId.pid ≠ emblaInvalidHostPid := by
    have := event.hostId.pos
    unfold emblaInvalidHostPid
    omega
  cases hget : processManagerGetByHostId x.embla.processHeap x.embla.processManager event.hostId.pid with
  | none => exact absurd hpid ((getByHostId_none hvalid).1 hget p (h.tracked p hout))
  | some q =>
    obtain ⟨hq, hqid, -⟩ := getByHostId_some hget
    have hqout : q ∈ x.out := (h.live q hq).2 (hf p hout hpid q hget)
    rw [h.pids p hout q hqout (hpid.trans hqid.symm)]

/-- A process with another pid stays out, the one with the pid does not. -/
theorem mem_heard (hw : x.embla.host.wait4s.head = .event event) (hd : event.status.Death) :
    p ∈ x.heard ↔ p ∈ x.out ∧ (x.embla.process p).hostId ≠ event.hostId.pid := by
  unfold heard
  rw [hw]
  simp only [if_pos hd, List.mem_filter, decide_eq_true_eq]

theorem heard_alive (hw : x.embla.host.wait4s.head = .event event) (hd : ¬ event.status.Death) : x.heard = x.out := by
  unfold heard
  rw [hw]
  exact if_neg hd

theorem heard_silent (hw : ∀ event, x.embla.host.wait4s.head ≠ .event event) : x.heard = x.out := by
  unfold heard
  rcases Wait4Answer.silent hw with h | h | h <;> rw [h]

/-- The same processes with the same pids, and the same of them dead. -/
theorem Matched.congr (h : x.Matched) {e : Embla} (ht : ∀ q, e.Tracked q ↔ x.embla.Tracked q)
    (hid : ∀ q, x.embla.Tracked q → (e.process q).hostId = (x.embla.process q).hostId)
    (hdead : ∀ q, x.embla.Tracked q → ((e.process q).state = .terminated ↔ (x.embla.process q).state = .terminated)) :
    Matched ⟨e, x.out⟩ := by
  refine ⟨fun q hq => (ht q).2 (h.tracked q hq), fun q hq => ?_, fun q hq r hr hqr => ?_⟩
  · rw [h.live q ((ht q).1 hq)]
    exact (not_congr (hdead q ((ht q).1 hq))).symm
  · simp only at hqr
    rw [hid q (h.tracked q hq), hid r (h.tracked r hr)] at hqr
    exact h.pids q hq r hr hqr

/-- A report keeps the record of the children, if it does not go astray. -/
theorem Matched.told (h : x.Matched) (hinv : x.embla.Inv) (hf : event.status.Death → x.Finds event)
    (hw : x.embla.host.wait4s.head = .event event) {e : Embla} (ht : Embla.Told event x.embla e) :
    Matched ⟨e, x.heard⟩ := by
  have htracked := ht.handled.tracked
  have hpid := ht.handled.hostId
  by_cases hd : event.status.Death
  · refine ⟨fun q hq => ?_, fun q hq => ?_, fun q hq r hr hqr => ?_⟩
    · exact (htracked q).2 (h.tracked q ((mem_heard hw hd).1 hq).1)
    · have hq' := (htracked q).1 hq
      rw [mem_heard hw hd, h.live q hq']
      by_cases hget : processManagerGetByHostId x.embla.processHeap x.embla.processManager event.hostId.pid = some q
      · -- the process the report is for
        have hdead := (ht.applied q hd hget).2.2 (hinv.started q hq')
        exact iff_of_false (fun hcon => hcon.2 (getByHostId_some hget).2.1) (fun hcon => hcon hdead)
      · have hsame := ht.others q fun hcon => hget hcon.2
        rw [show (e.process q).state ≠ .terminated ↔ (x.embla.process q).state ≠ .terminated from not_congr hsame.2.2]
        refine and_iff_left_of_imp fun hlive hqpid => hget ?_
        exact h.lookup (hf hd) ((h.live q hq').2 hlive) hqpid
    · rw [hpid, hpid] at hqr
      exact h.pids q ((mem_heard hw hd).1 hq).1 r ((mem_heard hw hd).1 hr).1 hqr
  · rw [heard_alive hw hd]
    exact h.congr htracked (fun q _ => hpid q) fun q _ => (ht.others q fun hcon => hd hcon.1).2.2

theorem Matched.silent (h : x.Matched) (hw : ∀ event, x.embla.host.wait4s.head ≠ .event event) :
    Matched ⟨x.embla.polled, x.heard⟩ := by
  rw [heard_silent hw]
  exact ⟨h.tracked, h.live, h.pids⟩

theorem Matched.spawned (h : x.Matched) (hinv : x.embla.Inv) (hfree : x.PidFree) {parentId : Nat} {name : String}
    {g : GroupPtr} {e : Embla} (hs : Spawned parentId name g x.embla e) :
    Matched ⟨e, x.embla.processHeap.next :: x.out⟩ := by
  obtain ⟨pid, hfork, hnew, -⟩ := hs.record
  have hold : ∀ q, x.embla.Tracked q → e.process q = x.embla.process q := fun q hq => hs.old hinv hq
  have hnewPid : (e.process x.embla.processHeap.next).hostId = pid.pid := by rw [hnew]
  -- the host does not hand out the pid of a child that is still out
  have hfresh : ∀ q ∈ x.out, (e.process q).hostId ≠ pid.pid := by
    intro q hq
    rw [hold q (h.tracked q hq)]
    exact hfree pid hfork q hq
  refine ⟨fun q hq => ?_, fun q hq => ?_, fun q hq r hr hqr => ?_⟩
  · rcases List.mem_cons.1 hq with rfl | hq
    · exact (hs.tracked _).2 (.inr rfl)
    · exact (hs.tracked q).2 (.inl (h.tracked q hq))
  · rcases (hs.tracked q).1 hq with hq | rfl
    · have hne : q ≠ x.embla.processHeap.next := fun hc => absurd (hinv.alloc hq) (by lia)
      rw [List.mem_cons, or_iff_right hne, h.live q hq]
      simp only
      rw [hold q hq]
    · refine iff_of_true List.mem_cons_self ?_
      simp only
      rw [hnew]
      exact fun hc => by cases hc
  · simp only at hqr
    rcases List.mem_cons.1 hq with rfl | hq <;> rcases List.mem_cons.1 hr with rfl | hr
    · rfl
    · exact absurd (hqr.symm.trans hnewPid) (hfresh r hr)
    · exact absurd (hqr.trans hnewPid) (hfresh q hq)
    · rw [hold q (h.tracked q hq), hold r (h.tracked r hr)] at hqr
      exact h.pids q hq r hr hqr

theorem Matched.unspawned (h : x.Matched) (hinv : x.embla.Inv) {e : Embla} (hsame : Embla.SameTables x.embla e)
    (hproc : ∀ p < x.embla.processHeap.next, e.process p = x.embla.process p) : Matched ⟨e, x.out⟩ := by
  have hold : ∀ q, x.embla.Tracked q → e.process q = x.embla.process q := fun q hq => hproc q (hinv.alloc hq)
  exact h.congr hsame.tracked (fun q hq => by rw [hold q hq]) fun q hq => by rw [hold q hq]

/-- A reaped process was dead, so its child is not out. -/
theorem Matched.reaped (h : x.Matched) {e : Embla} (hp : x.embla.Tracked p)
    (hdead : (x.embla.process p).state = .terminated) (hr : Embla.Reaped p x.embla e) : Matched ⟨e, x.out⟩ := by
  have hproc := hr.process
  refine ⟨fun q hq => (hr.tracked q).2 ⟨h.tracked q hq, ?_⟩, fun q hq => ?_, fun q hq r hr hqr => ?_⟩
  · rintro rfl
    exact (h.live q hp).1 hq hdead
  · simp only
    rw [hproc]
    exact h.live q ((hr.tracked q).1 hq).1
  · simp only at hqr
    rw [hproc, hproc] at hqr
    exact h.pids q hq r hr hqr

/-! ## Every operation -/

/-- A process that has ended: it is dead or was reaped, and no operation changes what it ended with. -/
structure Settled (q : ProcessPtr) (x : Watched) : Prop where
  made : q < x.embla.processHeap.next
  dead : x.embla.Tracked q → (x.embla.process q).state = .terminated

/-- `q` is settled still, with the same end. -/
def Rests (q : ProcessPtr) (x y : Watched) : Prop :=
  Settled q y ∧ (y.embla.process q).exitCode = (x.embla.process q).exitCode ∧
    (y.embla.process q).termSignal = (x.embla.process q).termSignal

theorem Settled.told {q : ProcessPtr} (h : Settled q x) (hc : x.Certain) (hw : x.embla.host.wait4s.head = .event event)
    {e : Embla} (ht : Embla.Told event x.embla e) : Rests q x ⟨e, x.heard⟩ := by
  have hsame := ht.others q fun ⟨hd, hget⟩ => hc event hw hd q hget (h.dead (getByHostId_some hget).1)
  refine ⟨⟨?_, fun hq => ?_⟩, hsame.1, hsame.2.1⟩
  · simp only
    rw [ht.handled.next]
    exact h.made
  · rw [ht.handled.tracked] at hq
    exact hsame.2.2.2 (h.dead hq)

theorem Settled.spawned {q : ProcessPtr} (h : Settled q x) {parentId : Nat} {name : String} {g : GroupPtr} {e : Embla}
    (hs : Spawned parentId name g x.embla e) (out : List ProcessPtr) : Rests q x ⟨e, out⟩ := by
  have hne : q ≠ x.embla.processHeap.next := fun hc => absurd h.made (by lia)
  have hold : e.process q = x.embla.process q := hs.others q hne
  unfold Rests
  simp only
  rw [hold]
  refine ⟨⟨?_, fun hq => ?_⟩, rfl, rfl⟩
  · simp only
    rw [hs.next]
    exact Nat.lt_succ_of_lt h.made
  · rw [hold]
    exact h.dead (((hs.tracked q).1 hq).resolve_right hne)

theorem Settled.unspawned {q : ProcessPtr} (h : Settled q x) {e : Embla} (hsame : Embla.SameTables x.embla e)
    (hproc : ∀ p < x.embla.processHeap.next, e.process p = x.embla.process p) (out : List ProcessPtr) :
    Rests q x ⟨e, out⟩ := by
  unfold Rests
  simp only
  rw [hproc q h.made]
  refine ⟨⟨lt_of_lt_of_le h.made hsame.next, fun hq => ?_⟩, rfl, rfl⟩
  rw [hsame.tracked] at hq
  rw [hproc q h.made]
  exact h.dead hq

theorem Settled.reaped {q : ProcessPtr} (h : Settled q x) {e : Embla} (hr : Embla.Reaped p x.embla e)
    (out : List ProcessPtr) : Rests q x ⟨e, out⟩ := by
  have hproc := hr.process q
  unfold Rests
  simp only
  rw [hproc]
  refine ⟨⟨by rw [hr.heap]; exact h.made, fun hq => ?_⟩, rfl, rfl⟩
  rw [hproc]
  exact h.dead ((hr.tracked q).1 hq).1

theorem Settled.rescheduled {q : ProcessPtr} (h : Settled q x) {e : Embla} (hr : Embla.Rescheduled x.embla e)
    (hsame : (x.embla.process q).SameEnd (e.process q)) (out : List ProcessPtr) : Rests q x ⟨e, out⟩ := by
  refine ⟨⟨?_, fun hq => ?_⟩, hsame.1, hsame.2.1⟩
  · simp only
    rw [hr.next]
    exact h.made
  · rw [hr.tracked] at hq
    exact hsame.2.2.2 (h.dead hq)

theorem Matched.heardBy (h : x.Matched) (hinv : x.embla.Inv)
    (hf : ∀ event, x.embla.host.wait4s.head = .event event → event.status.Death → x.Finds event) {e : Embla}
    (hh : Embla.Heard x.embla e) : Matched ⟨e, x.heard⟩ := by
  cases hh with
  | told event hw ht hx => exact h.told hinv (hf event hw) hw ht
  | silent hw hx =>
    rw [hx]
    exact h.silent hw

theorem Settled.heardBy {q : ProcessPtr} (h : Settled q x) (hc : x.Certain) {e : Embla} (hh : Embla.Heard x.embla e) :
    Rests q x ⟨e, x.heard⟩ := by
  cases hh with
  | told event hw ht hx => exact h.told hc hw ht
  | silent hw hx =>
    rw [hx]
    exact ⟨⟨h.made, h.dead⟩, rfl, rfl⟩

/-- One operation keeps the record of the children and leaves every settled process at rest. -/
theorem Matched.exec (h : x.Matched) (hinv : x.embla.Inv) {op : WatchOp} (hop : op.Sure x) (hx : op.exec x = some y) :
    y.Matched ∧ ∀ q, Settled q x → Rests q x y := by
  cases op with
  | spawn name =>
    cases hx
    by_cases hs : x.embla.Spawnable
    · obtain ⟨e, he, hl⟩ := Embla.emblaSpawn_launched hinv hs name
      rw [he]
      refine ⟨?_, fun q hq => ?_⟩
      · -- the group made first changes nothing that is watched
        have hgroup : Matched ⟨x.embla.withNewGroup, x.out⟩ := ⟨h.tracked, h.live, h.pids⟩
        exact hgroup.spawned (hinv.withNewGroup hs.1.groupRoom) hop.1 hl
      · exact Settled.spawned (x := ⟨x.embla.withNewGroup, x.out⟩) ⟨hq.made, hq.dead⟩ hl _
    · obtain ⟨e, he, hsame, hproc, -⟩ := Embla.emblaSpawn_failed hinv hs name
      rw [he]
      exact ⟨h.unspawned hinv hsame hproc, fun q hq => hq.unspawned hsame hproc _⟩
  | spawnChild parent name =>
    cases hx
    obtain ⟨hfree, hp⟩ := hop.1
    obtain ⟨g, -, -, ⟨-, e, he, hs⟩ | ⟨-, e, he, hu⟩⟩ := Embla.emblaSpawnChild_cases hinv hp name <;> rw [he]
    · exact ⟨h.spawned hinv hfree hs, fun q hq => hq.spawned hs _⟩
    · have hsame := hu.sameTables hinv
      exact ⟨h.unspawned hinv hsame hu.others, fun q hq => hq.unspawned hsame hu.others _⟩
  | dispatch =>
    cases hx
    obtain ⟨hr, hsame⟩ := Embla.dispatch_sameEnd hinv
    exact ⟨h.congr hr.tracked (fun q _ => (hr.kept q).2.2) fun q _ => (hsame q).2.2, fun q hq => hq.rescheduled hr (hsame q) _⟩
  | handleEvent =>
    cases hx
    have hc := hop.2 (.inl rfl)
    have hheard := Embla.handleNext_heard x.embla
    exact ⟨h.heardBy hinv (fun _ => hc.finds) hheard, fun q hq => hq.heardBy hc hheard⟩
  | drainEvent =>
    cases hx
    have hc := hop.2 (.inr rfl)
    have hheard := Embla.drain_heard x.embla
    exact ⟨h.heardBy hinv (fun _ => hc.finds) hheard, fun q hq => hq.heardBy hc hheard⟩
  | reapChild parentId =>
    cases hx
    rcases Embla.emblaReapChild_target hinv parentId with ⟨-, he⟩ | ⟨p, e, -, hp, hdead, he, hr, -⟩ <;> rw [he]
    · exact ⟨h, fun q hq => ⟨hq, rfl, rfl⟩⟩
    · exact ⟨h.reaped hp hdead hr, fun q hq => hq.reaped hr _⟩
  | reapProcess processId =>
    cases hx
    rcases Embla.emblaReapProcess_target hinv processId with ⟨-, he⟩ | ⟨p, e, -, hp, hdead, he, hr⟩ <;> rw [he]
    · exact ⟨h, fun q hq => ⟨hq, rfl, rfl⟩⟩
    · exact ⟨h.reaped hp hdead hr, fun q hq => hq.reaped hr _⟩

theorem exec_own {op : WatchOp} (hx : op.exec x = some y) : op.own.exec x.embla = some y.embla := by
  cases op <;> cases hx <;> rfl

theorem valid_own {op : WatchOp} (hop : op.Lawful x) : op.own.Valid x.embla := by
  cases op with
  | spawnChild parent name => exact hop.2
  | _ => trivial

theorem sound_exec (h : x.embla.Sound) {op : WatchOp} (hop : op.Lawful x) (hx : op.exec x = some y) : y.embla.Sound :=
  h.exec (valid_own hop) (exec_own hx)

theorem runs_start {host : Host} (h : Runs WatchOp.exec WatchOp.Sure (start host) x) : x.embla.Sound ∧ x.Matched := by
  refine h.holds (I := fun x => x.embla.Sound ∧ x.Matched) (fun x y op hI hop hx => ?_)
    ⟨Embla.sound_create host, matched_start host⟩
  exact ⟨sound_exec hI.1 hop.1 hx, (hI.2.exec hI.1.inv hop hx).1⟩

theorem Matched.rests (h : x.Matched) (hsound : x.embla.Sound) (hr : Runs WatchOp.exec WatchOp.Sure x y) {q : ProcessPtr}
    (hq : Settled q x) : Rests q x y := by
  suffices hall : y.embla.Sound ∧ y.Matched ∧ Rests q x y from hall.2.2
  refine hr.holds (I := fun y => y.embla.Sound ∧ y.Matched ∧ Rests q x y) (fun y z op hI hop hx => ?_)
    ⟨hsound, h, hq, rfl, rfl⟩
  obtain ⟨hs, hm, hrest⟩ := hI
  obtain ⟨hmatched, hsettled⟩ := hm.exec hs.inv hop hx
  obtain ⟨h1, h2, h3⟩ := hsettled q hrest.1
  exact ⟨sound_exec hs hop.1 hx, hmatched, h1, h2.trans hrest.2.1, h3.trans hrest.2.2⟩

/-- The death `event` has reached `p` and nobody else: `p` is the one process with that pid whose
child was out. -/
structure Reached (event : ChildEvent) (p : ProcessPtr) (x y : Watched) : Prop where
  unique : ∀ q, x.embla.Tracked q → q ∈ x.out → (x.embla.process q).hostId = event.hostId.pid → q = p
  ended : (y.embla.process p).state = .terminated
  exitCode : (y.embla.process p).exitCode = (Embla.WaitStatus.note event.status (x.embla.process p)).exitCode
  termSignal : (y.embla.process p).termSignal = (Embla.WaitStatus.note event.status (x.embla.process p)).termSignal
  others : ∀ q, q ≠ p → (x.embla.process q).SameEnd (y.embla.process q)

/-- In a run in which no lookup hits a dead process every death reaches its process, and what a dead
process ended with never changes. -/
theorem deaths_reach_their_process {host : Host} (h : Runs WatchOp.exec WatchOp.Sure (start host) x) :
    (∀ (op : WatchOp) (y : Watched) (event : ChildEvent) (p : ProcessPtr), op = .handleEvent ∨ op = .drainEvent →
      op.Sure x → op.exec x = some y → x.embla.host.wait4s.head = .event event → event.status.Death →
      x.embla.Tracked p → p ∈ x.out → (x.embla.process p).hostId = event.hostId.pid → Reached event p x y) ∧
    (∀ (y : Watched) (q : ProcessPtr), Runs WatchOp.exec WatchOp.Sure x y → x.embla.Tracked q →
      (x.embla.process q).state = .terminated →
      (y.embla.process q).exitCode = (x.embla.process q).exitCode ∧
        (y.embla.process q).termSignal = (x.embla.process q).termSignal) := by
  obtain ⟨hsound, hmatched⟩ := runs_start h
  have hinv := hsound.inv
  constructor
  · intro op y event p hevent hop hx hw hd hp hout hpid
    have hget := hmatched.lookup ((hop.2 hevent).finds hw hd) hout hpid
    have ht : Embla.Told event x.embla y.embla := by
      rcases hevent with rfl | rfl
      · cases hx
        exact Embla.handleNext_told hw
      · cases hx
        exact Embla.drain_told hw
    obtain ⟨hcode, hsignal, hended⟩ := ht.applied p hd hget
    refine ⟨fun q _ hqout hqpid => ?_, hended (hinv.started p hp), hcode, hsignal, fun q hq => ?_⟩
    · exact hmatched.pids q hqout p hout (hqpid.trans hpid.symm)
    · refine ht.others q ?_
      rintro ⟨-, hget'⟩
      rw [hget] at hget'
      cases hget'
      exact hq rfl
  · intro y q hr hq hdead
    obtain ⟨-, hcode, hsignal⟩ := hmatched.rests hsound hr ⟨hinv.alloc hq, fun _ => hdead⟩
    exact ⟨hcode, hsignal⟩

end Watched

/-- A host that uses one pid over and over, with two exits of it. -/
def onePidHost : Host :=
  { Host.generous [.event (exitOf 0 0), .event (exitOf 0 7)] [] 0 with forks := fun _ => some ⟨1, Int.one_pos⟩ }

/-- The first process has ended and is not reaped, the second has its pid. -/
def pidTakenOver : Watched :=
  let ended := emblaHandleNextEvent (emblaSpawn "first" (emblaCreate onePidHost)).2
  ⟨(emblaSpawn "second" ended).2, [1]⟩

/-- The exit of the second process is taken for one of the first: its exit code is overwritten, and
the second stays ready. -/
theorem death_goes_astray :
    Runs WatchOp.exec WatchOp.Lawful (.start onePidHost) pidTakenOver ∧
    pidTakenOver.embla.host.wait4s.head = .event (exitOf 0 7) ∧
    pidTakenOver.embla.Tracked 1 ∧ 1 ∈ pidTakenOver.out ∧ (pidTakenOver.embla.process 1).hostId = 1 ∧
    (pidTakenOver.embla.process 0).state = .terminated ∧ (pidTakenOver.embla.process 0).exitCode = 0 ∧
    ((emblaHandleNextEvent pidTakenOver.embla).process 1).state = .ready ∧
    ((emblaHandleNextEvent pidTakenOver.embla).process 0).exitCode = 7 ∧
    ((serviceRegistryDrainOneEvent pidTakenOver.embla).2.process 1).state = .ready ∧
    ((serviceRegistryDrainOneEvent pidTakenOver.embla).2.process 0).exitCode = 7 := by
  refine ⟨?_, by decide +kernel, ?_, by decide +kernel, by decide +kernel, by decide +kernel, by decide +kernel,
    by decide +kernel, by decide +kernel, by decide +kernel, by decide +kernel⟩
  · refine (((Runs.refl _).next (.spawn "first") (fun _ _ _ hp => absurd hp List.not_mem_nil) rfl).next
      .handleEvent trivial rfl).next (.spawn "second") (fun _ _ p hp => ?_) rfl
    have hnone : ∀ p, p ∉ Watched.heard ⟨(emblaSpawn "first" (emblaCreate onePidHost)).2, [0]⟩ := by
      have hnil : Watched.heard ⟨(emblaSpawn "first" (emblaCreate onePidHost)).2, [0]⟩ = [] := by decide +kernel
      rw [hnil]
      exact fun _ => List.not_mem_nil
    exact absurd hp (hnone p)
  · decide +kernel

/-- Two processes with pids of their own, and the exit of the second about to be reported. -/
def secondExits : Watched := ⟨twoSpawned [.event (exitOf 1 7)], [1, 0]⟩

theorem death_reaches_the_second :
    Watched.Reached (exitOf 1 7) 1 secondExits ⟨(serviceRegistryDrainOneEvent secondExits.embla).2, secondExits.heard⟩ := by
  have hrun : Runs WatchOp.exec WatchOp.Sure (.start (.generous [.event (exitOf 1 7)] [] 0)) secondExits := by
    have hquiet : ∀ name : String, ¬(WatchOp.spawn name = .handleEvent ∨ WatchOp.spawn name = .drainEvent) := by
      rintro name (hc | hc) <;> cases hc
    refine ((Runs.refl _).next (.spawn "first") ⟨fun _ _ _ hp => absurd hp List.not_mem_nil, fun hc => absurd hc (hquiet _)⟩ rfl).next
      (.spawn "second") ⟨fun child hc p hp => ?_, fun hc => absurd hc (hquiet _)⟩ rfl
    have hone : p = 0 := List.mem_singleton.1 hp
    subst hone
    cases hc
    exact fun hc => by cases hc
  refine (Watched.deaths_reach_their_process hrun).1 .drainEvent _ (exitOf 1 7) 1 (.inr rfl) ⟨trivial, fun _ => ?_⟩ rfl
    (by decide +kernel) trivial ?_ (by decide +kernel) (by decide +kernel)
  · intro event hw _ p hp
    have hget : processManagerGetByHostId secondExits.embla.processHeap secondExits.embla.processManager 2 = some 1 := by decide +kernel
    cases hw
    rw [show (exitOf 1 7).hostId.pid = 2 from rfl, hget] at hp
    cases hp
    decide +kernel
  · decide +kernel

end EmblaOs
