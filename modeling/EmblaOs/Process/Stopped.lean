/-
What Embla knows of stopped children. Beside the runtime runs a record of the last stop or continue
that was reported of each child that has not been waited for. The state of a process follows this record
until a dispatch takes a stopped process from the front of the ready queue: from then on it counts as
running and `embla_continue_process` does not wake it. It does not follow either where a dead process
still has the pid of the child and the lookup finds that one first.
-/
import EmblaOs.Process.Watching
import Mathlib.Logic.Function.Basic

namespace EmblaOs

open Lib

/-- The state a report asks for. -/
def WaitStatus.target : WaitStatus → Option ProcessState
  | .exited _ => some .terminated
  | .signaled _ => some .terminated
  | .stopped _ => some .stopped
  | .continued => some .running
  | .other => none

/-- A stop or a continue. -/
def WaitStatus.moves : WaitStatus → Bool
  | .stopped _ => true
  | .continued => true
  | _ => false

theorem WaitStatus.target_of_quiet {status : WaitStatus} {next : ProcessState} (hm : status.moves = false)
    (ht : status.target = some next) : next = .terminated := by
  cases status with
  | exited code => exact (Option.some.inj ht).symm
  | signaled signal => exact (Option.some.inj ht).symm
  | stopped signal => cases hm
  | continued => cases hm
  | other => cases ht

theorem WaitStatus.target_ne_blocked (status : WaitStatus) : status.target ≠ some .blocked := by
  cases status <;> exact fun hc => by cases hc

/-- A live process that was started and is not blocked refuses a stop only when it is stopped. -/
theorem stop_refused {state : ProcessState} (hc : state ≠ .created) (hb : state ≠ .blocked) (hl : state ≠ .terminated)
    (hr : ¬ processCanTransition state .stopped = true) : state = .stopped := by
  rw [canTransition_stopped] at hr
  cases state <;> simp_all

namespace Embla

variable {e e' : Embla} {p q : ProcessPtr} {event : ChildEvent}

/-- A report changes the state of the process the lookup finds, if the transition is allowed, and no
other state. -/
theorem emblaHandleChildEvent_state (event : ChildEvent) (e : Embla) (q : ProcessPtr) :
    ((emblaHandleChildEvent event e).2.process q).state =
      match event.status.target with
      | some next =>
        if processManagerGetByHostId e.processHeap e.processManager event.hostId.pid = some q ∧
          processCanTransition (e.process q).state next = true then next else (e.process q).state
      | none => (e.process q).state := by
  unfold emblaHandleChildEvent
  cases hget : processManagerGetByHostId e.processHeap e.processManager event.hostId.pid with
  | none => cases event.status <;> simp [WaitStatus.target]
  | some p =>
    have hmove : ∀ next, ((e.modifyProcess p fun _ => (processTransition (e.process p) next).2).process q).state =
        if some p = some q ∧ processCanTransition (e.process q).state next = true then next else (e.process q).state := by
      intro next
      rcases eq_or_ne q p with rfl | hne
      · rw [process_modifyProcess_self, processTransition_eq]
        simp
      · rw [process_modifyProcess_of_ne e _ hne, if_neg fun hc => hne (Option.some.inj hc.1).symm]
    have hend : ∀ f : Process → Process, (∀ r, (f r).state = r.state) →
        ((emblaHandleTerminated p event.usage (e.modifyProcess p f)).2.process q).state =
          if some p = some q ∧ processCanTransition (e.process q).state .terminated = true then .terminated
          else (e.process q).state := by
      intro f hf
      rw [emblaHandleTerminated_state, process_modifyProcess_self, hf]
      rcases eq_or_ne q p with rfl | hne
      · rw [process_modifyProcess_self, hf]
        simp
      · rw [process_modifyProcess_of_ne e _ hne, if_neg fun hc => hne hc.1,
          if_neg fun hc => hne (Option.some.inj hc.1).symm]
    cases event.status with
    | exited code => exact hend _ fun _ => rfl
    | signaled signal => exact hend _ fun _ => rfl
    | stopped signal => exact hmove .stopped
    | continued => exact hmove .running
    | other => rfl

/-- The process found goes to the state the report asks for, unless that is refused. -/
theorem emblaHandleChildEvent_moved (e : Embla)
    (hget : processManagerGetByHostId e.processHeap e.processManager event.hostId.pid = some q) (next : ProcessState)
    (ht : event.status.target = some next) :
    ((emblaHandleChildEvent event e).2.process q).state = next ∨
      ((emblaHandleChildEvent event e).2.process q).state = (e.process q).state ∧
        ¬ processCanTransition (e.process q).state next = true := by
  rw [emblaHandleChildEvent_state, ht]
  simp only [hget, true_and]
  split
  · exact .inl rfl
  · rename_i hrefused
    exact .inr ⟨rfl, hrefused⟩

theorem emblaHandleChildEvent_unmoved (e : Embla)
    (hget : processManagerGetByHostId e.processHeap e.processManager event.hostId.pid ≠ some q) :
    ((emblaHandleChildEvent event e).2.process q).state = (e.process q).state := by
  rw [emblaHandleChildEvent_state]
  split
  · exact if_neg fun hc => hget hc.1
  · rfl

/-- A state that is new is the one the report asks for. -/
theorem emblaHandleChildEvent_target (event : ChildEvent) (e : Embla) (q : ProcessPtr) :
    ((emblaHandleChildEvent event e).2.process q).state = (e.process q).state ∨
      event.status.target = some ((emblaHandleChildEvent event e).2.process q).state := by
  rw [emblaHandleChildEvent_state]
  cases event.status.target with
  | none => exact .inl rfl
  | some next =>
    simp only
    split
    · exact .inr rfl
    · exact .inl rfl

/-- The dead stay dead. -/
theorem emblaHandleChildEvent_dead (event : ChildEvent) (e : Embla) (hdead : (e.process q).state = .terminated) :
    ((emblaHandleChildEvent event e).2.process q).state = .terminated := by
  rw [emblaHandleChildEvent_state]
  split
  · rename_i next ht
    rw [if_neg, hdead]
    rw [hdead]
    rintro ⟨-, hcan⟩
    cases next <;> cases hcan
  · exact hdead

end Embla

/-! ## The last stop or continue -/

/-- The runtime, the processes whose child is out and the last stop or continue reported of each child. -/
structure Viewed extends Watched where
  last : ProcessPtr → Option WaitStatus

namespace Viewed

/-- The record after the next poll: a stop or a continue is noted for the child that has the pid. -/
def noted (x : Viewed) : ProcessPtr → Option WaitStatus :=
  match x.embla.host.wait4s.head with
  | .event event => fun p =>
    if event.status.moves ∧ p ∈ x.out ∧ (x.embla.process p).hostId = event.hostId.pid then some event.status
    else x.last p
  | _ => x.last

/-- The record after an operation. -/
def lastAfter (x : Viewed) : WatchOp → ProcessPtr → Option WaitStatus
  | .handleEvent => x.noted
  | _ => x.last

def exec (op : WatchOp) (x : Viewed) : Option Viewed := (op.exec x.toWatched).map fun w => ⟨w, x.lastAfter op⟩

/-- A runtime just created. -/
def start (host : Host) : Viewed := ⟨Watched.start host, fun _ => none⟩

end Viewed

/-- A dispatch would start this process although it is stopped. -/
def Embla.StoppedInFront (e : Embla) (p : ProcessPtr) : Prop :=
  e.scheduler.current = none ∧ e.front = some p ∧ e.Tracked p ∧ (e.process p).state = .stopped

namespace Viewed

/-- What the host guarantees, tracked parents, and every event is handled. -/
def Handling (x : Viewed) (op : WatchOp) : Prop := op.Lawful x.toWatched ∧ op ≠ .drainEvent

/-- No dispatch starts a stopped process, and no report of a child that is out leads the lookup to a dead
process. -/
def Minding (x : Viewed) (op : WatchOp) : Prop :=
  x.Handling op ∧ (op = .dispatch → ∀ p, ¬ x.embla.StoppedInFront p) ∧
    (op = .handleEvent → ∀ event, x.embla.host.wait4s.head = .event event → x.Finds event)

/-- The last stop or continue of the child of `p` was a stop. -/
def LastStopped (x : Viewed) (p : ProcessPtr) : Prop := ∃ signal, x.last p = some (.stopped signal)

/-- The processes that live are in the state STOPPED when the last stop or continue of their child was a
stop. -/
def Faithful (x : Viewed) : Prop :=
  ∀ p, x.embla.Tracked p → (x.embla.process p).state ≠ .terminated →
    ((x.embla.process p).state = .stopped ↔ x.LastStopped p)

/-- The tables are in order, the children that are out are those of the live processes, only processes
that were made have a record, and those tracked have a pid and are not blocked. -/
structure Ordered (x : Viewed) : Prop where
  sound : x.embla.Sound
  matched : x.Matched
  made : ∀ p, x.last p ≠ none → p < x.embla.processHeap.next
  unblocked : ∀ p, x.embla.Tracked p → (x.embla.process p).state ≠ .blocked
  pid : ∀ p, x.embla.Tracked p → (x.embla.process p).hostId ≠ emblaInvalidHostPid

variable {x y : Viewed} {p : ProcessPtr} {event : ChildEvent} {op : WatchOp}

theorem ordered_start (host : Host) : (start host).Ordered :=
  ⟨Embla.sound_create host, Watched.matched_start host, fun _ hp => absurd rfl hp, fun _ hp => absurd hp List.not_mem_nil,
    fun _ hp => absurd hp List.not_mem_nil⟩

theorem faithful_start (host : Host) : (start host).Faithful := fun _ hp => absurd hp List.not_mem_nil

theorem noted_eq (hw : x.embla.host.wait4s.head = .event event) (p : ProcessPtr) :
    x.noted p = if event.status.moves ∧ p ∈ x.out ∧ (x.embla.process p).hostId = event.hostId.pid then some event.status
      else x.last p := by
  unfold noted
  rw [hw]

theorem noted_quiet (hw : x.embla.host.wait4s.head = .event event) (hm : event.status.moves = false) (p : ProcessPtr) :
    x.noted p = x.last p := by
  rw [noted_eq hw, hm]
  exact if_neg fun hc => Bool.false_ne_true hc.1

theorem noted_silent (hw : ∀ event, x.embla.host.wait4s.head ≠ .event event) : x.noted = x.last := by
  unfold noted
  rcases Wait4Answer.silent hw with h | h | h <;> rw [h]

theorem noted_some (hm : x.noted p ≠ none) : x.last p ≠ none ∨ p ∈ x.out := by
  by_cases hw : ∃ event, x.embla.host.wait4s.head = .event event
  · obtain ⟨event, hw⟩ := hw
    rw [noted_eq hw] at hm
    split at hm
    · rename_i hc
      exact .inr hc.2.1
    · exact .inl hm
  · rw [noted_silent fun event hc => hw ⟨event, hc⟩] at hm
    exact .inl hm

/-! ## Handling an event -/

/-- The state after a report and what the record says of it. -/
theorem Faithful.reported (h : x.Faithful) (ho : x.Ordered) (hw : x.embla.host.wait4s.head = .event event)
    (hf : x.Finds event) (hy : y.embla = (emblaHandleChildEvent event x.embla.polled).2) (hlast : y.last = x.noted) :
    y.Faithful := by
  intro p hp hlive
  unfold LastStopped
  rw [hlast]
  rw [hy] at hp hlive ⊢
  have hp' : x.embla.Tracked p := by
    rwa [(Embla.emblaHandleChildEvent_handled event x.embla.polled).tracked] at hp
  have htarget := Embla.emblaHandleChildEvent_target event x.embla.polled p
  have hkept : ((emblaHandleChildEvent event x.embla.polled).2.process p).state = (x.embla.process p).state →
      x.noted p = x.last p →
      (((emblaHandleChildEvent event x.embla.polled).2.process p).state = .stopped ↔
        ∃ signal, x.noted p = some (.stopped signal)) := by
    intro hstate hlast
    rw [hstate] at hlive ⊢
    rw [hlast]
    exact h p hp' hlive
  -- a report that is neither a stop nor a continue leaves what still lives as it was
  by_cases hm : event.status.moves = false
  · rcases htarget with hsame | hended
    · exact hkept hsame (noted_quiet hw hm p)
    · exact absurd (WaitStatus.target_of_quiet hm hended) hlive
  have hm : event.status.moves = true := by simpa using hm
  by_cases hits : p ∈ x.out ∧ (x.embla.process p).hostId = event.hostId.pid
  · -- the report is about its child, and the lookup finds it
    have hget := ho.matched.lookup hf hits.1 hits.2
    have hmoved := Embla.emblaHandleChildEvent_moved x.embla.polled hget
    rw [noted_eq hw, if_pos ⟨hm, hits⟩]
    cases hs : event.status with
    | exited code => rw [hs] at hm; cases hm
    | signaled signal => rw [hs] at hm; cases hm
    | other => rw [hs] at hm; cases hm
    | stopped signal =>
      refine iff_of_true ?_ ⟨signal, rfl⟩
      rcases hmoved .stopped (by rw [hs]; rfl) with hnew | ⟨hsame, hrefused⟩
      · exact hnew
      · -- refused only when it is stopped already
        rw [hsame] at hlive ⊢
        exact stop_refused (ho.sound.inv.started p hp') (ho.unblocked p hp') hlive hrefused
    | continued =>
      refine iff_of_false ?_ fun ⟨signal, hc⟩ => by cases hc
      rcases hmoved .running (by rw [hs]; rfl) with hnew | ⟨hsame, hrefused⟩
      · rw [hnew]
        exact fun hc => by cases hc
      · -- refused only when it is not stopped
        rw [hsame]
        exact fun hc => hrefused ((canTransition_running _).2 (.inr hc))
  · -- nor does the lookup find it: it is dead, or has another pid
    have hunnoted : x.noted p = x.last p := by
      rw [noted_eq hw]
      exact if_neg fun hc => hits hc.2
    by_cases hget : processManagerGetByHostId x.embla.processHeap x.embla.processManager event.hostId.pid = some p
    · have hdead : (x.embla.process p).state = .terminated := by
        by_contra hlive'
        exact hits ⟨(ho.matched.live p hp').2 hlive', (getByHostId_some hget).2.1⟩
      exact absurd (Embla.emblaHandleChildEvent_dead event x.embla.polled hdead) hlive
    · exact hkept (Embla.emblaHandleChildEvent_unmoved x.embla.polled hget) hunnoted

/-! ## One operation -/

/-- What an operation can do to the processes and to the record. -/
inductive Turned (op : WatchOp) (x y : Viewed) : Prop
  | kept (hlast : y.last = x.last) (hnext : x.embla.processHeap.next ≤ y.embla.processHeap.next)
      (ht : ∀ p, y.embla.Tracked p → x.embla.Tracked p)
      (hold : ∀ p, x.embla.Tracked p → y.embla.process p = x.embla.process p)
  | spawned (hlast : y.last = x.last) (hnext : x.embla.processHeap.next < y.embla.processHeap.next)
      (ht : ∀ p, y.embla.Tracked p → x.embla.Tracked p ∨ p = x.embla.processHeap.next)
      (hold : ∀ p, x.embla.Tracked p → y.embla.process p = x.embla.process p)
      (hready : (y.embla.process x.embla.processHeap.next).state = .ready)
      (hpid : (y.embla.process x.embla.processHeap.next).hostId ≠ emblaInvalidHostPid)
  | started (p : ProcessPtr) (s : Scheduler) (hop : op = .dispatch) (hc : x.embla.scheduler.current = none)
      (hfront : x.embla.front = some p) (hcan : processCanTransition (x.embla.process p).state .running = true)
      (hy : y.embla = x.embla.started p s) (hlast : y.last = x.last)
  | reported (event : ChildEvent) (hop : op = .handleEvent) (hw : x.embla.host.wait4s.head = .event event)
      (hy : y.embla = (emblaHandleChildEvent event x.embla.polled).2) (hlast : y.last = x.noted)

theorem turned_spawned {parentId : Nat} {name : String} {g : GroupPtr} {e e' : Embla} (hs : Spawned parentId name g e e')
    (hinv : e.Inv) (ht : ∀ p, e.Tracked p ↔ x.embla.Tracked p) (hheap : e.processHeap = x.embla.processHeap)
    (hy : y.embla = e') (hlast : y.last = x.last) : Turned op x y := by
  obtain ⟨child, -, hnew, -⟩ := hs.record
  rw [hheap] at hnew
  refine .spawned hlast ?_ (fun p hp => ?_) (fun p hp => ?_) ?_ ?_
  · rw [hy, hs.next, hheap]
    exact Nat.lt_succ_self _
  · rw [hy] at hp
    rw [← hheap, ← ht]
    exact (hs.tracked p).1 hp
  · rw [hy, hs.old hinv ((ht p).2 hp)]
    unfold Embla.process
    rw [hheap]
  · rw [hy, hnew]
  · have := child.pos
    rw [hy, hnew]
    unfold emblaInvalidHostPid
    show child.pid ≠ 0
    omega

theorem turned_reaped {e : Embla} (hr : Embla.Reaped p x.embla e) (hy : y.embla = e) (hlast : y.last = x.last) :
    Turned op x y := by
  refine .kept hlast ?_ (fun q hq => ?_) fun q _ => ?_
  · rw [hy, hr.heap]
  · rw [hy] at hq
    exact ((hr.tracked q).1 hq).1
  · rw [hy]
    exact hr.process q

theorem turned_spawn (h : x.embla.Inv) {name : String} (hy : y.embla = (emblaSpawn name x.embla).2) (hlast : y.last = x.last) :
    Turned op x y := by
  by_cases hs : x.embla.Spawnable
  · obtain ⟨e, hx, hl⟩ := Embla.emblaSpawn_launched h hs name
    rw [hx] at hy
    exact turned_spawned hl (h.withNewGroup hs.1.groupRoom) (fun _ => Iff.rfl) rfl hy hlast
  · obtain ⟨e, hx, hsame, hproc, -⟩ := Embla.emblaSpawn_failed h hs name
    rw [hx] at hy
    refine .kept hlast (by rw [hy]; exact hsame.next) (fun p hp => ?_) fun p hp => ?_
    · rwa [hy, hsame.tracked] at hp
    · rw [hy]
      exact hproc p (h.alloc hp)

theorem turned_spawnChild (h : x.embla.Inv) {parent : ProcessPtr} (hp : x.embla.Tracked parent) {name : String}
    (hy : y.embla = (emblaSpawnChild parent name x.embla).2) (hlast : y.last = x.last) : Turned op x y := by
  obtain ⟨g, -, -, ⟨-, e, hx, hs⟩ | ⟨-, e, hx, hu⟩⟩ := Embla.emblaSpawnChild_cases h hp name <;> rw [hx] at hy
  · exact turned_spawned hs h (fun _ => Iff.rfl) rfl hy hlast
  · refine .kept hlast (by rw [hy]; exact hu.next) (fun p hp => ?_) fun p hp => ?_
    · rwa [hy, Embla.tracked_congr hu.processes] at hp
    · rw [hy]
      exact hu.others p (h.alloc hp)

theorem turned_dispatch (h : x.embla.Inv) (hy : y.embla = (emblaDispatch x.embla).2) (hlast : y.last = x.last) :
    Turned .dispatch x y := by
  obtain ⟨l, hl, -⟩ := h.queue
  have hkept : ∀ s, y.embla = { x.embla with scheduler := s } → Turned .dispatch x y := by
    intro s hy
    exact .kept hlast (by rw [hy]) (fun p hp => by rwa [hy] at hp) fun p _ => by rw [hy]; rfl
  rcases Embla.emblaDispatch_cases hl with hx | ⟨p, rest, s, hlist, hc, hcan, hx, -⟩ | ⟨p, rest, s, -, -, -, hx, -⟩ <;>
    rw [hx] at hy
  · exact hkept x.embla.scheduler hy
  · refine .started p s rfl hc ?_ hcan hy hlast
    rw [Embla.front_queue hl, hlist]
    rfl
  · exact hkept s hy

theorem turned_handleEvent (hy : y.embla = emblaHandleNextEvent x.embla) (hlast : y.last = x.noted) :
    Turned .handleEvent x y := by
  rw [Embla.emblaHandleNextEvent_eq] at hy
  by_cases hw : ∃ event, x.embla.host.wait4s.head = .event event
  · obtain ⟨event, hw⟩ := hw
    rw [hw] at hy
    exact .reported event rfl hw hy hlast
  · have hno : ∀ event, x.embla.host.wait4s.head ≠ .event event := fun event hc => hw ⟨event, hc⟩
    rw [noted_silent hno] at hlast
    have hpolled : y.embla = x.embla.polled := by
      rcases Wait4Answer.silent hno with hs | hs | hs <;> rw [hs] at hy <;> exact hy
    exact .kept hlast (by rw [hpolled]; exact le_refl _) (fun p hp => by rwa [hpolled] at hp) fun p _ => by rw [hpolled]; rfl

theorem turned (h : x.embla.Inv) (hop : x.Handling op) (hx : exec op x = some y) : Turned op x y := by
  obtain ⟨w, hw, rfl⟩ := Option.map_eq_some_iff.1 hx
  cases op with
  | spawn name =>
    cases hw
    exact turned_spawn h rfl rfl
  | spawnChild parent name =>
    cases hw
    exact turned_spawnChild h hop.1.2 rfl rfl
  | dispatch =>
    cases hw
    exact turned_dispatch h rfl rfl
  | handleEvent =>
    cases hw
    exact turned_handleEvent rfl rfl
  | drainEvent => exact absurd rfl hop.2
  | reapChild parentId =>
    cases hw
    rcases Embla.emblaReapChild_target h parentId with ⟨-, he⟩ | ⟨p, e, -, -, -, he, hr, -⟩
    · exact .kept rfl (by simp only [he]; exact le_refl _) (fun p hp => by simpa only [he] using hp) fun p _ => by simp only [he]
    · exact turned_reaped hr (by simp only [he]) rfl
  | reapProcess processId =>
    cases hw
    rcases Embla.emblaReapProcess_target h processId with ⟨-, he⟩ | ⟨p, e, -, -, -, he, hr⟩
    · exact .kept rfl (by simp only [he]; exact le_refl _) (fun p hp => by simpa only [he] using hp) fun p _ => by simp only [he]
    · exact turned_reaped hr (by simp only [he]) rfl

/-! ## The order -/

/-- The children that are out stay those of the live processes. -/
theorem matched_exec (h : x.Matched) (hinv : x.embla.Inv) (hop : x.Minding op) (hx : exec op x = some y) : y.Matched := by
  obtain ⟨w, hw, rfl⟩ := Option.map_eq_some_iff.1 hx
  by_cases hevent : op = .handleEvent
  · subst hevent
    cases hw
    exact h.heardBy hinv (fun event he _ => hop.2.2 rfl event he) (Embla.handleNext_heard x.embla)
  · have hsure : op.Sure x.toWatched := ⟨hop.1.1, fun hc => (hc.elim hevent hop.1.2).elim⟩
    exact (h.exec hinv hsure hw).1

/-- No process more, and the others with the same pid and unblocked as before. -/
theorem Ordered.congr (h : x.Ordered) (hs : y.embla.Sound) (hm : y.Matched)
    (hlast : ∀ p, y.last p ≠ none → x.last p ≠ none ∨ p ∈ x.out)
    (hnext : x.embla.processHeap.next ≤ y.embla.processHeap.next) (ht : ∀ p, y.embla.Tracked p → x.embla.Tracked p)
    (hid : ∀ p, x.embla.Tracked p → (y.embla.process p).hostId = (x.embla.process p).hostId)
    (hstate : ∀ p, x.embla.Tracked p → (x.embla.process p).state ≠ .blocked → (y.embla.process p).state ≠ .blocked) :
    y.Ordered := by
  refine ⟨hs, hm, fun p hp => ?_, fun p hp => hstate p (ht p hp) (h.unblocked p (ht p hp)), fun p hp => ?_⟩
  · refine lt_of_lt_of_le ?_ hnext
    rcases hlast p hp with hmade | hout
    · exact h.made p hmade
    · exact h.sound.inv.alloc (h.matched.tracked p hout)
  · rw [hid p (ht p hp)]
    exact h.pid p (ht p hp)

theorem Ordered.exec (h : x.Ordered) (hop : x.Minding op) (hx : Viewed.exec op x = some y) : y.Ordered := by
  have hm := matched_exec h.matched h.sound.inv hop hx
  have hsound : y.embla.Sound := by
    obtain ⟨w, hw, rfl⟩ := Option.map_eq_some_iff.1 hx
    exact Watched.sound_exec h.sound hop.1.1 hw
  cases turned h.sound.inv hop.1 hx with
  | kept hlast hnext ht hold =>
    refine h.congr hsound hm (fun p hp => .inl ?_) hnext ht (fun p hp => by rw [hold p hp]) fun p hp => by rw [hold p hp]; exact id
    rwa [hlast] at hp
  | spawned hlast hnext ht hold hready hpid =>
    refine ⟨hsound, hm, fun p hp => ?_, fun p hp => ?_, fun p hp => ?_⟩
    · rw [hlast] at hp
      exact lt_trans (h.made p hp) hnext
    all_goals rcases ht p hp with hp | rfl
    · rw [hold p hp]
      exact h.unblocked p hp
    · rw [hready]
      exact fun hc => by cases hc
    · rw [hold p hp]
      exact h.pid p hp
    · exact hpid
  | started p s hdispatch hc hfront hcan hy hlast =>
    refine h.congr hsound hm (fun q hq => .inl (by rwa [hlast] at hq)) (by rw [hy]; exact le_refl _)
      (fun q hq => by rwa [hy] at hq) (fun q _ => ?_) fun q _ hb => ?_
    all_goals rw [hy]; rcases eq_or_ne q p with rfl | hne
    · rw [Embla.started_self]
    · rw [Embla.started_other _ s hne]
    · rw [Embla.started_self]
      exact fun hc => by cases hc
    · rw [Embla.started_other _ s hne]
      exact hb
  | reported event hhandle hw hy hlast =>
    have hh := Embla.emblaHandleChildEvent_handled event x.embla.polled
    refine h.congr hsound hm (fun p hp => ?_) (by rw [hy]; exact le_of_eq hh.next.symm) (fun p hp => ?_)
      (fun p _ => by rw [hy]; exact hh.hostId p) fun p _ hb => ?_
    · rw [hlast] at hp
      exact noted_some hp
    · rwa [hy, hh.tracked] at hp
    · -- no report asks for BLOCKED
      rw [hy]
      rcases Embla.emblaHandleChildEvent_target event x.embla.polled p with hsame | htarget
      · exact fun hc => hb (hsame.symm.trans hc)
      · exact fun hc => event.status.target_ne_blocked (htarget.trans (congrArg some hc))

/-! ## The view -/

/-- A process that was READY is RUNNING now, and not stopped either way. -/
theorem Faithful.started (h : x.Faithful) {s : Scheduler} (hy : y.embla = x.embla.started p s) (hlast : y.last = x.last)
    (hp : x.embla.Tracked p → (x.embla.process p).state = .ready) : y.Faithful := by
  intro q hq hlive
  unfold LastStopped
  rw [hlast]
  rw [hy] at hq hlive ⊢
  rcases eq_or_ne q p with rfl | hne
  · have hready := hp hq
    have hview := h q hq (by rw [hready]; exact fun hc => by cases hc)
    rw [hready] at hview
    rw [Embla.started_self]
    refine iff_of_false (fun hc => by cases hc) fun hstopped => ?_
    exact absurd (hview.2 hstopped) fun hc => by cases hc
  · rw [Embla.started_other _ s hne] at hlive ⊢
    exact h q hq hlive

theorem Faithful.exec (h : x.Faithful) (ho : x.Ordered) (hop : x.Minding op) (hx : Viewed.exec op x = some y) :
    y.Faithful := by
  cases turned ho.sound.inv hop.1 hx with
  | kept hlast hnext ht hold =>
    intro p hp hlive
    rw [hold p (ht p hp)] at hlive ⊢
    unfold LastStopped
    rw [hlast]
    exact h p (ht p hp) hlive
  | spawned hlast hnext ht hold hready hpid =>
    intro p hp hlive
    unfold LastStopped
    rw [hlast]
    rcases ht p hp with hp | rfl
    · rw [hold p hp] at hlive ⊢
      exact h p hp hlive
    · -- a new process has no record
      rw [hready]
      refine iff_of_false (fun hc => by cases hc) ?_
      rintro ⟨signal, hc⟩
      exact absurd (ho.made _ (by rw [hc]; exact Option.some_ne_none _)) (lt_irrefl _)
  | started p s hdispatch hc hfront hcan hy hlast =>
    refine h.started hy hlast fun htracked => ((canTransition_running _).1 hcan).resolve_right fun hstopped => ?_
    exact hop.2.1 hdispatch p ⟨hc, hfront, htracked, hstopped⟩
  | reported event hhandle hw hy hlast => exact h.reported ho hw (hop.2.2 hhandle event hw) hy hlast

/-- A dispatch leaves the view faithful exactly when it starts no stopped process. -/
theorem Faithful.dispatch_iff (h : x.Faithful) (ho : x.Ordered) (hx : Viewed.exec .dispatch x = some y) :
    y.Faithful ↔ ∀ p, ¬ x.embla.StoppedInFront p := by
  constructor
  · rintro hafter p ⟨hc, hp, htracked, hstopped⟩
    -- it is running afterwards, and its last report is still a stop
    obtain ⟨l, hl, -⟩ := ho.sound.inv.queue
    rw [Embla.front_queue hl] at hp
    obtain ⟨rest, rfl⟩ := List.head?_eq_some_iff.1 hp
    obtain ⟨s, hd, -⟩ := schedulerDispatch_ok hl hc ((canTransition_running _).2 (.inr hstopped))
    have hdispatch : emblaDispatch x.embla = (0, x.embla.started p s) := by
      unfold emblaDispatch
      rw [hd]
      rfl
    obtain ⟨w, hw, rfl⟩ := Option.map_eq_some_iff.1 hx
    cases hw
    have hlast := (h p htracked (by rw [hstopped]; exact fun hc => by cases hc)).1 hstopped
    have hview := hafter p
    simp only [hdispatch] at hview
    rw [Embla.started_self] at hview
    have hcontra : ProcessState.running = .stopped := (hview htracked fun hc => by cases hc).2 hlast
    cases hcontra
  · intro hno
    have hop : x.Minding .dispatch := ⟨⟨trivial, fun hc => by cases hc⟩, fun _ => hno, fun hc => by cases hc⟩
    exact h.exec ho hop hx

/-- The report of a stop or a continue of the child of `p` that Embla does not know of yet. -/
structure News (x : Viewed) (event : ChildEvent) (p : ProcessPtr) : Prop where
  next : x.embla.host.wait4s.head = .event event
  out : p ∈ x.out
  pid : (x.embla.process p).hostId = event.hostId.pid
  moves : event.status.moves = true
  fresh : ¬ ((x.embla.process p).state = .stopped ↔ ∃ signal, event.status = .stopped signal)

/-- News leave the view faithful exactly when the lookup does not hit a dead process. -/
theorem Faithful.news_iff (h : x.Faithful) (ho : x.Ordered) (hn : x.News event p)
    (hx : Viewed.exec .handleEvent x = some y) : y.Faithful ↔ x.Finds event := by
  obtain ⟨hw, hout, hpid, hm, hfresh⟩ := hn
  constructor
  · intro hafter p' hout' hpid' q hget hdead
    have hp := ho.matched.tracked p hout
    have hlive := (ho.matched.live p hp).1 hout
    have hne : processManagerGetByHostId x.embla.processHeap x.embla.processManager event.hostId.pid ≠ some p := by
      rw [hget]
      rintro hc
      cases hc
      exact hlive hdead
    have hy : y.embla = (emblaHandleChildEvent event x.embla.polled).2 ∧ y.last = x.noted := by
      obtain ⟨w, hexec, rfl⟩ := Option.map_eq_some_iff.1 hx
      cases hexec
      refine ⟨?_, rfl⟩
      show emblaHandleNextEvent x.embla = _
      rw [Embla.emblaHandleNextEvent_eq, hw]
    have hsame := Embla.emblaHandleChildEvent_unmoved x.embla.polled hne
    -- the record has it and the process does not
    have hview := hafter p
    unfold LastStopped at hview
    rw [hy.1, hy.2, hsame, noted_eq hw, if_pos ⟨hm, hout, hpid⟩] at hview
    refine hfresh ((hview ?_ hlive).trans (exists_congr fun signal => Option.some_inj))
    rwa [(Embla.emblaHandleChildEvent_handled event x.embla.polled).tracked]
  · intro hf
    have hop : x.Minding .handleEvent := by
      refine ⟨⟨trivial, fun hc => by cases hc⟩, (fun hc => by cases hc), fun _ event' he => ?_⟩
      rw [hw] at he
      cases he
      exact hf
    exact h.exec ho hop hx

/-- A round of `embla_run` handles an event and dispatches at most once. -/
theorem round_run {failed : Bool} {e : Embla} (h : Embla.Round x.embla failed e) :
    ∃ y, Runs exec Handling x y ∧ y.embla = e := by
  have hhandle : Runs exec Handling x ⟨⟨emblaHandleNextEvent x.embla, x.heard⟩, x.noted⟩ :=
    (Runs.refl x).next .handleEvent ⟨trivial, fun hc => by cases hc⟩ rfl
  have hdispatch := hhandle.next .dispatch ⟨trivial, fun hc => by cases hc⟩ rfl
  have heq := Embla.emblaHandleNextEvent_eq x.embla
  cases h with
  | error hw =>
    rw [hw] at heq
    exact ⟨_, hhandle, heq⟩
  | quiet hw =>
    rcases hw with hw | hw <;> rw [hw] at heq <;> exact ⟨_, hhandle, heq⟩
  | refused event hw =>
    rw [hw] at heq
    exact ⟨_, hhandle, heq⟩
  | handled event hw =>
    rw [hw] at heq
    exact ⟨_, hhandle, heq⟩
  | stuck event hw =>
    rw [hw] at heq
    exact ⟨_, hdispatch, congrArg (fun e => (emblaDispatch e).2) heq⟩
  | dispatched event hw =>
    rw [hw] at heq
    exact ⟨_, hdispatch, congrArg (fun e => (emblaDispatch e).2) heq⟩

/-! ## Waking -/

/-- A stopped process with a pid gets its signal, and no other gets one. -/
theorem emblaContinueProcess_accepts {e : Embla} (hpid : (e.process p).hostId ≠ emblaInvalidHostPid) :
    (emblaContinueProcess p e).1 = 0 ↔ (e.process p).state = .stopped ∧ e.host.kills.head = .ok := by
  unfold emblaContinueProcess executorSignal
  by_cases hstopped : (e.process p).state = .stopped
  · rw [if_neg (not_not.2 hstopped), if_neg hpid]
    simp only [Host.kill]
    by_cases hok : e.host.kills.head = .ok
    · simp [hstopped, hok]
    · simp [hok]
  · rw [if_pos hstopped]
    simp [hstopped]

/-- In a run in which no dispatch starts a stopped process and no report of a child that is out leads the
lookup to a dead process, the live processes are those with a child that is out, each is stopped exactly
when the last stop or continue of its child was a stop, and exactly then, the host permitting, it can be
continued. The dispatches that start no stopped process are all that keep it so, and so are the news
that find their process. -/
theorem stopped_view_faithful {host : Host} (h : Runs exec Minding (start host) x) :
    (∀ p, x.embla.Tracked p → (x.embla.process p).state ≠ .terminated →
      p ∈ x.out ∧ ((x.embla.process p).state = .stopped ↔ x.LastStopped p) ∧
      ((emblaContinueProcess p x.embla).1 = 0 ↔ x.LastStopped p ∧ x.embla.host.kills.head = .ok)) ∧
    (∀ y, exec .dispatch x = some y → (y.Faithful ↔ ∀ p, ¬ x.embla.StoppedInFront p)) ∧
    ∀ event p y, x.News event p → exec .handleEvent x = some y → (y.Faithful ↔ x.Finds event) := by
  have hall : x.Ordered ∧ x.Faithful := by
    refine h.holds (I := fun x => x.Ordered ∧ x.Faithful) (fun x y op hI hop hx => ?_)
      ⟨ordered_start host, faithful_start host⟩
    exact ⟨hI.1.exec hop hx, hI.2.exec hI.1 hop hx⟩
  obtain ⟨ho, hf⟩ := hall
  refine ⟨fun p hp hlive => ⟨(ho.matched.live p hp).2 hlive, hf p hp hlive, ?_⟩, fun y hx => hf.dispatch_iff ho hx,
    fun event p y hn hx => hf.news_iff ho hn hx⟩
  rw [emblaContinueProcess_accepts (ho.pid p hp), hf p hp hlive]

end Viewed

/-! ## Two stopped processes -/

/-- Two processes, the second of which is stopped while the first has its turn, then the first exits. -/
def stoppedInQueue : List Wait4Answer := [.event (reportOf 1 (.stopped 19)), .event (exitOf 0 0)]

/-- The first has its turn. -/
def firstAtTurn : Viewed := ⟨⟨(emblaDispatch (twoSpawned stoppedInQueue)).2, [1, 0]⟩, fun _ => none⟩

def secondStopped : Viewed := ⟨⟨emblaHandleNextEvent firstAtTurn.embla, firstAtTurn.heard⟩, firstAtTurn.noted⟩

def stoppedAtFront : Viewed := ⟨⟨emblaHandleNextEvent secondStopped.embla, secondStopped.heard⟩, secondStopped.noted⟩

/-- A host that uses one pid over and over, with an exit and a stop of it. -/
def stopOfSamePid : Host :=
  { Host.generous [.event (exitOf 0 0), .event (reportOf 0 (.stopped 19))] [] 0 with forks := fun _ => some ⟨1, Int.one_pos⟩ }

/-- The first process has ended and was reaped or not, the second has its pid. -/
def samePid (reaped : Bool) : Viewed :=
  let ended := emblaHandleNextEvent (emblaSpawn "first" (emblaCreate stopOfSamePid)).2
  ⟨⟨(emblaSpawn "second" (if reaped then (emblaReapProcess 1 ended).2 else ended)).2, [1]⟩, fun _ => none⟩

def samePidStopped (reaped : Bool) : Viewed :=
  ⟨⟨emblaHandleNextEvent (samePid reaped).embla, (samePid reaped).heard⟩, (samePid reaped).noted⟩

/-- A report for a live process that the lookup finds. -/
theorem Watched.finds_live {x : Watched} {event : ChildEvent} {p : ProcessPtr}
    (hget : processManagerGetByHostId x.embla.processHeap x.embla.processManager event.hostId.pid = some p)
    (hlive : (x.embla.process p).state ≠ .terminated) : x.Finds event := by
  intro _ _ _ q hq
  rw [hget] at hq
  cases hq
  exact hlive

theorem Viewed.minding_spawn {x : Viewed} (hfree : x.PidFree) (name : String) : x.Minding (.spawn name) :=
  ⟨⟨hfree, fun hc => by cases hc⟩, (fun hc => by cases hc), fun hc => by cases hc⟩

/-- The next event reaches the live process `p`. -/
theorem Viewed.minding_handle {x : Viewed} (event : ChildEvent) (p : ProcessPtr) (hw : x.embla.host.wait4s.head = .event event)
    (hget : processManagerGetByHostId x.embla.processHeap x.embla.processManager event.hostId.pid = some p)
    (hlive : (x.embla.process p).state ≠ .terminated) : x.Minding .handleEvent := by
  refine ⟨⟨trivial, fun hc => by cases hc⟩, (fun hc => by cases hc), fun _ event' he => ?_⟩
  rw [hw] at he
  cases he
  exact Watched.finds_live hget hlive

theorem stoppedAtFront_run : Runs Viewed.exec Viewed.Minding (.start (.generous stoppedInQueue [] 0)) stoppedAtFront := by
  have hnobody : (Viewed.start (.generous stoppedInQueue [] 0)).PidFree := fun _ _ _ hp => absurd hp List.not_mem_nil
  have hsecond : Watched.PidFree ⟨(emblaSpawn "first" (emblaCreate (.generous stoppedInQueue [] 0))).2, [0]⟩ := by
    rintro child hc p hp
    obtain rfl := List.mem_singleton.1 hp
    cases hc
    exact fun hc => by cases hc
  have hturn : Viewed.Minding ⟨⟨twoSpawned stoppedInQueue, [1, 0]⟩, fun _ => none⟩ .dispatch := by
    refine ⟨⟨trivial, fun hc => by cases hc⟩, fun _ => ?_, fun hc => by cases hc⟩
    rintro p ⟨-, hfront, -, hstopped⟩
    have hzero : (twoSpawned stoppedInQueue).front = some 0 := by decide +kernel
    obtain rfl := Option.some.inj (hzero.symm.trans hfront)
    have hready : ((twoSpawned stoppedInQueue).process 0).state = .ready := by decide +kernel
    exact absurd (hready.symm.trans hstopped) fun hc => by cases hc
  exact (((((Runs.refl _).next (.spawn "first") (Viewed.minding_spawn hnobody _) rfl).next (.spawn "second")
    (Viewed.minding_spawn hsecond _) rfl).next .dispatch hturn rfl).next .handleEvent
    (Viewed.minding_handle (reportOf 1 (.stopped 19)) 1 rfl (by decide +kernel) (by decide +kernel)) rfl).next
    .handleEvent (Viewed.minding_handle (exitOf 0 0) 0 rfl (by decide +kernel) (by decide +kernel)) rfl

theorem samePid_run :
    Runs Viewed.exec Viewed.Minding (.start stopOfSamePid) (samePid false) ∧
    Runs Viewed.exec Viewed.Minding (.start stopOfSamePid) (samePid true) := by
  have hnobody : ∀ {x : Viewed}, x.out = [] → x.PidFree := fun hout _ _ _ hp => by rw [hout] at hp; cases hp
  have hended : Runs Viewed.exec Viewed.Minding (.start stopOfSamePid)
      ⟨⟨emblaHandleNextEvent (emblaSpawn "first" (emblaCreate stopOfSamePid)).2, []⟩, fun _ => none⟩ := by
    have hhears : (⟨⟨(emblaSpawn "first" (emblaCreate stopOfSamePid)).2, [0]⟩, fun _ => none⟩ : Viewed).Minding .handleEvent :=
      Viewed.minding_handle (exitOf 0 0) 0 rfl (by decide +kernel) (by decide +kernel)
    exact ((Runs.refl _).next (.spawn "first") (Viewed.minding_spawn (hnobody rfl) _) rfl).next .handleEvent hhears rfl
  refine ⟨?_, ?_⟩
  · exact hended.next (.spawn "second") (Viewed.minding_spawn (hnobody rfl) _) rfl
  · exact (hended.next (.reapProcess 1) ⟨⟨trivial, fun hc => by cases hc⟩, (fun hc => by cases hc), fun hc => by cases hc⟩ rfl).next
      (.spawn "second") (Viewed.minding_spawn (hnobody rfl) _) rfl

/-- Its turn makes the second process RUNNING although its child is stopped; and where a dead process has
the pid of the second, the stop does not reach the second. Either way it cannot be continued. -/
theorem stopped_view_lost :
    (Runs Viewed.exec Viewed.Handling (.start (.generous stoppedInQueue [] 0))
        ⟨⟨(emblaDispatch stoppedAtFront.embla).2, stoppedAtFront.out⟩, stoppedAtFront.last⟩ ∧
      (emblaDispatch stoppedAtFront.embla).2.Tracked 1 ∧ stoppedAtFront.last 1 = some (.stopped 19) ∧
      ((emblaDispatch stoppedAtFront.embla).2.process 1).state = .running ∧
      (emblaContinueProcess 1 (emblaDispatch stoppedAtFront.embla).2).1 = -1) ∧
    (Runs Viewed.exec Viewed.Handling (.start stopOfSamePid) (samePidStopped false) ∧
      (samePidStopped false).embla.Tracked 1 ∧ (samePidStopped false).last 1 = some (.stopped 19) ∧
      ((samePidStopped false).embla.process 1).state = .ready ∧
      (emblaContinueProcess 1 (samePidStopped false).embla).1 = -1) := by
  refine ⟨⟨?_, ?_, by decide +kernel, by decide +kernel, by decide +kernel⟩, ?_, ?_, by decide +kernel, by decide +kernel,
    by decide +kernel⟩
  · exact (stoppedAtFront_run.mono fun _ _ hop => hop.1).next .dispatch ⟨trivial, fun hc => by cases hc⟩ rfl
  · decide +kernel
  · exact (samePid_run.1.mono fun _ _ hop => hop.1).next .handleEvent ⟨trivial, fun hc => by cases hc⟩ rfl
  · decide +kernel

/-- Before its turn the second process can be continued, and the dispatch is what breaks the view; a
second process with the pid of one that was reaped hears of its stop. -/
theorem stopped_view_faithful_before_dispatch :
    ((emblaContinueProcess 1 stoppedAtFront.embla).1 = 0 ∧
      ¬ Viewed.Faithful ⟨⟨(emblaDispatch stoppedAtFront.embla).2, stoppedAtFront.out⟩, stoppedAtFront.last⟩) ∧
    (emblaContinueProcess 1 (samePidStopped true).embla).1 = 0 := by
  obtain ⟨hview, hdispatch, -⟩ := Viewed.stopped_view_faithful stoppedAtFront_run
  have htracked : stoppedAtFront.embla.Tracked 1 := by decide +kernel
  have hstop : Runs Viewed.exec Viewed.Minding (.start stopOfSamePid) (samePidStopped true) :=
    samePid_run.2.next .handleEvent (Viewed.minding_handle (reportOf 0 (.stopped 19)) 1 rfl
      (by decide +kernel) (by decide +kernel)) rfl
  refine ⟨⟨?_, fun hc => ?_⟩, ?_⟩
  · exact (hview 1 htracked (by decide +kernel)).2.2.2 ⟨⟨19, by decide +kernel⟩, rfl⟩
  · exact (hdispatch _ rfl).1 hc 1 ⟨by decide +kernel, by decide +kernel, htracked, by decide +kernel⟩
  · exact ((Viewed.stopped_view_faithful hstop).1 1 (by decide +kernel) (by decide +kernel)).2.2.2 ⟨⟨19, by decide +kernel⟩, rfl⟩

end EmblaOs
