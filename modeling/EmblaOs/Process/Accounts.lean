/-
What a record says about the end of its process: the exit code, the signal, the CPU times and the
memory. All five are -1 while the process lives, and everything a dead process shows was measured
with a death that the host reported of its pid. The handler and the drain differ on a pid that was
given away a second time: the first keeps the usage of the earlier death, the second overwrites it.
Either way a record changes with a reported death of its pid and at no other time.
-/
import EmblaOs.Process.Calls
import EmblaOs.Process.Watching

namespace EmblaOs

open Lib Relation

/-- How the process ended: the exit code and the signal. -/
def Process.ending (r : Process) : Int × Int := (r.exitCode, r.termSignal)

/-- What the process used: the two CPU times and the memory. -/
def Process.usage (r : Process) : ℚ × ℚ × Int := (r.cpuUserSeconds, r.cpuSystemSeconds, r.maxRssBytes)

/-- What `executor_apply_rusage` makes of the host's figures. -/
def Rusage.measured (platform : Platform) (usage : Rusage) : ℚ × ℚ × Int :=
  (usage.utime.sec + usage.utime.usec / 1000000, usage.stime.sec + usage.stime.usec / 1000000,
    platformNormalizeMaxRss platform usage.maxrss)

/-- The exit code and the signal of a process that ended in this way, one of them -1. -/
def WaitStatus.ending : WaitStatus → Int × Int
  | .exited code => (code, -1)
  | .signaled signal => (-1, signal)
  | _ => (-1, -1)

/-- Nothing is recorded yet. -/
def Process.Open (r : Process) : Prop := r.ending = (-1, -1) ∧ r.usage = (-1, -1, -1)

/-- The same child, alive or dead as before and with the same end. -/
structure Process.SameAccount (r r' : Process) : Prop where
  hostId : r'.hostId = r.hostId
  dead : r'.state = .terminated ↔ r.state = .terminated
  ending : r'.ending = r.ending
  usage : r'.usage = r.usage

theorem Process.SameAccount.refl (r : Process) : r.SameAccount r := ⟨rfl, Iff.rfl, rfl, rfl⟩

theorem Process.SameAccount.trans {a b c : Process} (h : a.SameAccount b) (h' : b.SameAccount c) : a.SameAccount c :=
  ⟨h'.hostId.trans h.hostId, h'.dead.trans h.dead, h'.ending.trans h.ending, h'.usage.trans h.usage⟩

/-- The host has reported this death of the child with the pid. -/
structure Host.Died (host : Host) (pid : Int) (event : ChildEvent) : Prop where
  reported : .reported event ∈ host.trace
  death : event.status.Death
  pid : event.hostId.pid = pid

/-- Everything the record shows comes with a reported death. -/
structure Process.Closed (host : Host) (r : Process) : Prop where
  usage : ∃ event, host.Died r.hostId event ∧ r.usage = event.usage.measured host.platform
  noted : ∃ event, host.Died r.hostId event ∧
    (event.status = .exited r.exitCode ∨ event.status = .signaled r.termSignal)
  exitCode : r.exitCode = -1 ∨ ∃ event, host.Died r.hostId event ∧ event.status = .exited r.exitCode
  termSignal : r.termSignal = -1 ∨ ∃ event, host.Died r.hostId event ∧ event.status = .signaled r.termSignal

/-- With a single death of this pid the record is what that death makes of it. -/
theorem Process.Closed.single {host : Host} {r : Process} (h : r.Closed host) {event : ChildEvent}
    (hone : ∀ other, host.Died r.hostId other → other = event) :
    r.ending = event.status.ending ∧ r.usage = event.usage.measured host.platform := by
  obtain ⟨measured, hdied, husage⟩ := h.usage
  obtain rfl := hone measured hdied
  refine ⟨?_, husage⟩
  have hcode : r.exitCode = -1 ∨ measured.status = .exited r.exitCode := by
    rcases h.exitCode with hnone | ⟨other, hother, hs⟩
    · exact .inl hnone
    · exact .inr (hone other hother ▸ hs)
  have hsignal : r.termSignal = -1 ∨ measured.status = .signaled r.termSignal := by
    rcases h.termSignal with hnone | ⟨other, hother, hs⟩
    · exact .inl hnone
    · exact .inr (hone other hother ▸ hs)
  obtain ⟨noted, hnoted, hs⟩ := h.noted
  rw [hone noted hnoted] at hs
  -- a death is an exit or a signal, not both
  unfold ending
  rcases hs with hs | hs
  · have hnot : r.termSignal = -1 := hsignal.resolve_right fun hc => by rw [hs] at hc; cases hc
    rw [hs, hnot]
    rfl
  · have hnot : r.exitCode = -1 := hcode.resolve_right fun hc => by rw [hs] at hc; cases hc
    rw [hs, hnot]
    rfl

theorem Process.Closed.mono {host host' : Host} {r r' : Process} (h : r.Closed host) (hs : r.SameAccount r')
    (hp : host'.platform = host.platform) (ht : ∀ event, .reported event ∈ host.trace → .reported event ∈ host'.trace) :
    r'.Closed host' := by
  have hdied : ∀ {event}, host.Died r.hostId event → host'.Died r'.hostId event := by
    intro event hd
    exact ⟨ht event hd.reported, hd.death, hd.pid.trans hs.hostId.symm⟩
  have hending : (r'.exitCode, r'.termSignal) = (r.exitCode, r.termSignal) := hs.ending
  obtain ⟨hcode, hsignal⟩ := Prod.mk.injEq .. ▸ hending
  obtain ⟨measured, hm, husage⟩ := h.usage
  obtain ⟨noted, hn, hstatus⟩ := h.noted
  refine ⟨⟨measured, hdied hm, ?_⟩, ⟨noted, hdied hn, ?_⟩, ?_, ?_⟩
  · rw [hs.usage, hp]
    exact husage
  · rw [hcode, hsignal]
    exact hstatus
  · rw [hcode]
    exact h.exitCode.imp_right fun ⟨event, he, hst⟩ => ⟨event, hdied he, hst⟩
  · rw [hsignal]
    exact h.termSignal.imp_right fun ⟨event, he, hst⟩ => ⟨event, hdied he, hst⟩

namespace Embla

variable {e e' : Embla} {p q : ProcessPtr} {event : ChildEvent}

/-! ## What a report writes -/

/-- What a poll makes of what was measured: the figures go to the process the lookup finds, if it is
a death, and a process that was dead before may keep those it has. -/
structure Measured (e e' : Embla) : Prop where
  platform : e'.host.platform = e.host.platform
  others : ∀ q, (∀ event, e.host.wait4s.head = .event event → event.status.Death →
    processManagerGetByHostId e.processHeap e.processManager event.hostId.pid ≠ some q) →
    (e'.process q).usage = (e.process q).usage
  applied : ∀ event p, e.host.wait4s.head = .event event → event.status.Death →
    processManagerGetByHostId e.processHeap e.processManager event.hostId.pid = some p →
    (e'.process p).usage = event.usage.measured e.host.platform ∨
      (e.process p).state = .terminated ∧ (e'.process p).usage = (e.process p).usage

theorem polled_platform (e : Embla) : e.polled.host.platform = e.host.platform := (Host.wait4_rest e.host).1

theorem emblaHandleTerminated_platform (p : ProcessPtr) (usage : Rusage) (e : Embla) :
    (emblaHandleTerminated p usage e).2.host.platform = e.host.platform := by
  rcases emblaHandleTerminated_cases p usage e with ⟨-, hx⟩ | ⟨-, ⟨-, hx⟩ | ⟨-, -, hx⟩ | ⟨-, -, ⟨-, hx⟩ | ⟨-, hx⟩⟩⟩ <;>
    rw [hx] <;> rfl

/-- The usage is written where the death is accepted, and nowhere else. -/
theorem emblaHandleTerminated_usage (p : ProcessPtr) (usage : Rusage) (e : Embla) (q : ProcessPtr) :
    ((emblaHandleTerminated p usage e).2.process q).usage =
      if q = p ∧ processCanTransition (e.process p).state .terminated = true then usage.measured e.host.platform
      else (e.process q).usage := by
  rw [emblaHandleTerminated_written Process.usage fun _ => rfl, ended_self]
  rfl

theorem note_usage (status : WaitStatus) (r : Process) : (WaitStatus.note status r).usage = r.usage := by
  cases status <;> rfl

/-- A process of the table that cannot end has ended. -/
theorem Inv.terminated_of_refused (h : e.Inv) (hp : e.Tracked p)
    (hno : ¬ processCanTransition (e.process p).state .terminated = true) : (e.process p).state = .terminated := by
  by_contra hlive
  exact hno ((canTransition_terminated _).2 ⟨h.started p hp, hlive⟩)

theorem handleNext_measured (h : e.Inv) : Measured e (emblaHandleNextEvent e) := by
  by_cases hw : ∃ event, e.host.wait4s.head = .event event
  swap
  · have hno : ∀ event, e.host.wait4s.head ≠ .event event := fun event hc => hw ⟨event, hc⟩
    rw [handleNext_silent hno]
    exact ⟨polled_platform e, fun _ _ => rfl, fun event _ hc => absurd hc (hno event)⟩
  obtain ⟨event, hw⟩ := hw
  rw [emblaHandleNextEvent_eq, hw]
  simp only
  have hevent : ∀ {event'}, e.host.wait4s.head = .event event' → event' = event := by
    intro event' hc
    rw [hw] at hc
    cases hc
    rfl
  rcases emblaHandleChildEvent_cases event e.polled with ⟨hnone, hx⟩ | ⟨p, hget, hcase⟩
  · rw [hx]
    refine ⟨polled_platform e, fun _ _ => rfl, fun event' p hc _ hp => ?_⟩
    cases hevent hc
    exact absurd (hnone.symm.trans hp) (fun hc => by cases hc)
  rcases hcase with ⟨hother, hx⟩ | ⟨next, -, halive, hx⟩ | ⟨hdeath, hx⟩ <;> rw [hx]
  · refine ⟨polled_platform e, fun _ _ => rfl, fun event' p hc hd => ?_⟩
    cases hevent hc
    rw [hother] at hd
    exact hd.elim
  · refine ⟨polled_platform e, fun q _ => ?_, fun event' p hc hd => ?_⟩
    · rcases eq_or_ne q p with rfl | hne
      · rw [process_modifyProcess_self, processTransition_eq]
        rfl
      · rw [process_modifyProcess_of_ne _ _ hne]
        rfl
    · cases hevent hc
      exact absurd hd halive
  · -- a death of `p`
    have hnote : ∀ q, ((e.polled.modifyProcess p (WaitStatus.note event.status)).process q).usage =
        (e.process q).usage := by
      intro q
      rcases eq_or_ne q p with rfl | hne
      · rw [process_modifyProcess_self, note_usage]
        rfl
      · rw [process_modifyProcess_of_ne _ _ hne]
        rfl
    have hstate : ((e.polled.modifyProcess p (WaitStatus.note event.status)).process p).state = (e.process p).state := by
      rw [process_modifyProcess_self]
      exact (WaitStatus.note_keeps event.status (e.process p)).2.2.2.1
    refine ⟨(emblaHandleTerminated_platform ..).trans (polled_platform e), fun q hq => ?_, fun event' r hc _ hr => ?_⟩
    · rw [emblaHandleTerminated_usage, if_neg, hnote]
      rintro ⟨rfl, -⟩
      exact hq event hw hdeath hget
    · cases hevent hc
      obtain rfl : p = r := Option.some.inj (hget.symm.trans hr)
      rw [emblaHandleTerminated_usage, hstate]
      by_cases hcan : processCanTransition (e.process p).state .terminated = true
      · left
        rw [if_pos ⟨rfl, hcan⟩]
        exact congrArg (fun platform => Rusage.measured platform event.usage) (polled_platform e)
      · right
        rw [if_neg fun hc => hcan hc.2, hnote]
        exact ⟨h.terminated_of_refused (getByHostId_some hget).1 hcan, rfl⟩

theorem drainRecord_usage (platform : Platform) {event : ChildEvent} (r : Process) (hd : event.status.Death) :
    (drainRecord platform event r).usage = event.usage.measured platform := by
  unfold drainRecord
  cases hs : event.status with
  | exited code => rfl
  | signaled signal => rfl
  | _ => rw [hs] at hd; exact hd.elim

theorem drain_measured (e : Embla) : Measured e (serviceRegistryDrainOneEvent e).2 := by
  by_cases hw : ∃ event, e.host.wait4s.head = .event event
  swap
  · have hno : ∀ event, e.host.wait4s.head ≠ .event event := fun event hc => hw ⟨event, hc⟩
    rw [drain_silent hno]
    exact ⟨polled_platform e, fun _ _ => rfl, fun event _ hc => absurd hc (hno event)⟩
  obtain ⟨event, hw⟩ := hw
  have hevent : ∀ {event'}, e.host.wait4s.head = .event event' → event' = event := by
    intro event' hc
    rw [hw] at hc
    cases hc
    rfl
  rw [drain_eq hw, drainEvent_eq]
  cases hget : processManagerGetByHostId e.polled.processHeap e.polled.processManager event.hostId.pid with
  | none =>
    refine ⟨polled_platform e, fun _ _ => rfl, fun event' p hc _ hp => ?_⟩
    cases hevent hc
    exact absurd (hget.symm.trans hp) (fun hc => by cases hc)
  | some p =>
    refine ⟨polled_platform e, fun q hq => ?_, fun event' r hc hd hr => ?_⟩
    · simp only
      rcases eq_or_ne q p with rfl | hne
      · rw [process_modifyProcess_self, drainRecord_alive]
        · rfl
        · exact fun hd => hq event hw hd hget
      · rw [process_modifyProcess_of_ne _ _ hne]
        rfl
    · cases hevent hc
      obtain rfl : p = r := Option.some.inj (hget.symm.trans hr)
      left
      simp only
      rw [process_modifyProcess_self, drainRecord_usage _ _ hd, polled_platform]

/-! ## Every operation -/

/-- A stretch without a report: the records of the processes there were show what they showed, and
what is new in the table shows nothing. -/
structure Unreported (e e' : Embla) : Prop where
  next : e.processHeap.next ≤ e'.processHeap.next
  calls : e.host.Calls e'.host
  account : ∀ p < e.processHeap.next, (e.process p).SameAccount (e'.process p)
  tracked : ∀ p, e'.Tracked p → e.Tracked p ∨ (e'.process p).Open ∧ (e'.process p).state ≠ .terminated

/-- A poll and what the runtime made of it. -/
structure Listened (e e' : Embla) : Prop where
  heard : Heard e e'
  measured : Measured e e'

/-- What an operation is made of. -/
inductive Turn (e e' : Embla) : Prop
  | unreported (h : Unreported e e')
  | listened (h : Listened e e')

theorem Unreported.onlyHost (ho : e.OnlyHost e') (hc : e.host.Calls e'.host) : Unreported e e' := by
  obtain ⟨host, rfl⟩ := ho
  exact ⟨le_refl _, hc, fun p _ => .refl _, fun p hp => .inl hp⟩

/-- A change of state between live states is not in the account. -/
theorem sameAccount_state (r : Process) {state : ProcessState} (h : r.state ≠ .terminated) (h' : state ≠ .terminated) :
    r.SameAccount { r with state := state } := ⟨rfl, iff_of_false h' h, rfl, rfl⟩

theorem unreported_dispatch (h : e.Inv) : Unreported e (emblaDispatch e).2 := by
  obtain ⟨l, hl, -⟩ := h.queue
  rcases emblaDispatch_cases hl with hx | ⟨p, rest, s, -, -, hcan, hx, -⟩ | ⟨p, rest, s, -, -, -, hx, -⟩ <;> rw [hx]
  · exact .onlyHost (.refl e) .refl
  · refine ⟨le_refl _, .refl, fun q _ => ?_, fun q hq => .inl hq⟩
    rcases eq_or_ne q p with rfl | hne
    · rw [started_self]
      refine sameAccount_state _ ?_ (fun hc => by cases hc)
      rcases (canTransition_running _).1 hcan with hs | hs <;> rw [hs] <;> exact fun hc => by cases hc
    · rw [started_other e s hne]
      exact .refl _
  · exact ⟨le_refl _, .refl, fun q _ => .refl _, fun q hq => .inl hq⟩

theorem unreported_yield (h : e.Inv) : Unreported e (emblaYield e).2 := by
  obtain ⟨l, hl, -⟩ := h.queue
  rcases emblaYield_cases hl with hx | ⟨p, s, -, hcan, hx, -⟩ <;> rw [hx]
  · exact .onlyHost (.refl e) .refl
  · refine ⟨le_refl _, .refl, fun q _ => ?_, fun q hq => .inl hq⟩
    rcases eq_or_ne q p with rfl | hne
    · rw [yielded_self]
      refine sameAccount_state _ (fun hc => ?_) (fun hc => by cases hc)
      rw [hc] at hcan
      cases hcan
    · rw [yielded_other e s hne]
      exact .refl _

theorem Reaped.unreported (hr : Reaped p e e') : Unreported e e' := by
  refine ⟨le_of_eq (congrArg Heap.next hr.heap).symm, ?_, fun q _ => ?_, fun q hq => .inl ((hr.tracked q).1 hq).1⟩
  · rw [hr.host]
  · rw [hr.process]
    exact .refl _

/-- The spawn may follow on the making of a group. -/
theorem Spawned.unreported {e₀ : Embla} {parentId : Nat} {name : String} {g : GroupPtr} (hs : Spawned parentId name g e₀ e')
    (hheap : e₀.processHeap = e.processHeap) (htable : e₀.processManager = e.processManager)
    (hc : e.host.Calls e'.host) : Unreported e e' := by
  have hnext : e'.processHeap.next = e.processHeap.next + 1 := hheap ▸ hs.next
  refine ⟨by rw [hnext]; exact Nat.le_succ _, hc, fun q hq => ?_, fun q hq => ?_⟩
  · have hold : e'.process q = e.process q := by
      rw [hs.others q (by rw [hheap]; exact Nat.ne_of_lt hq)]
      unfold Embla.process
      rw [hheap]
    rw [hold]
    exact .refl _
  · rcases (hs.tracked q).1 hq with hold | rfl
    · left
      unfold Tracked at hold ⊢
      rwa [htable] at hold
    · obtain ⟨pid, -, hnew, -⟩ := hs.record
      right
      rw [hnew]
      exact ⟨⟨rfl, rfl⟩, fun hc => by cases hc⟩

theorem SameTables.unreported (hs : SameTables e e') (hproc : ∀ q < e.processHeap.next, e'.process q = e.process q)
    (hc : e.host.Calls e'.host) : Unreported e e' := by
  refine ⟨hs.next, hc, fun q hq => ?_, fun q hq => .inl ((hs.tracked q).1 hq)⟩
  rw [hproc q hq]
  exact .refl _

theorem unreported_spawn (h : e.Inv) (name : String) : Unreported e (emblaSpawn name e).2 := by
  have hcalls := emblaSpawn_calls name e
  by_cases hs : e.Spawnable
  · obtain ⟨e₁, hx, hl⟩ := emblaSpawn_launched h hs name
    rw [hx] at hcalls ⊢
    exact Spawned.unreported hl rfl rfl hcalls
  · obtain ⟨e₁, hx, hsame, hproc, -⟩ := emblaSpawn_failed h hs name
    rw [hx] at hcalls ⊢
    exact hsame.unreported hproc hcalls

theorem unreported_spawnChild (h : e.Inv) {parent : ProcessPtr} (hp : e.Tracked parent) (name : String) :
    Unreported e (emblaSpawnChild parent name e).2 := by
  have hcalls := emblaSpawnChild_calls parent name e
  obtain ⟨g, -, -, ⟨-, e₁, hx, hs⟩ | ⟨-, e₁, hx, hu⟩⟩ := emblaSpawnChild_cases h hp name <;> rw [hx] at hcalls ⊢
  · exact Spawned.unreported hs rfl rfl hcalls
  · exact (hu.sameTables h).unreported hu.others hcalls

/-- Operations, made of their parts, from a sound state. -/
structure Turns (e e' : Embla) : Prop where
  sound : e'.Sound
  parts : ReflTransGen (fun a b => a.Inv ∧ Turn a b) e e'

theorem Turns.next {e'' : Embla} (h : Turns e e') (ht : Turn e' e'') (hs : e''.Sound) : Turns e e'' :=
  ⟨hs, h.parts.tail ⟨h.sound.inv, ht⟩⟩

theorem turns_loop (e : Embla) : LoopKeeps (Turns e) where
  handle a h := h.next (.listened ⟨handleNext_heard a, handleNext_measured h.sound.inv⟩) (h.sound.step (.handle a))
  dispatch a h := h.next (.unreported (unreported_dispatch h.sound.inv)) (h.sound.step (.dispatch a))
  reap a p h hp hdead := by
    have hsound := h.sound.step (.reap hp hdead)
    obtain ⟨b, hx, hr, -⟩ := emblaReapFoundProcess_ok h.sound.inv hp
    rw [hx] at hsound ⊢
    exact h.next (.unreported hr.unreported) hsound
  state a state h :=
    h.next (.unreported ⟨le_refl _, .refl, fun _ _ => .refl _, fun _ hp => .inl hp⟩) (h.sound.step (.state a state))
  look a h := by
    have ho : a.OnlyHost { a with host := a.host.stopRequest.2 } := ⟨_, rfl⟩
    exact h.next (.unreported (.onlyHost ho (.single (.stopRequest a.host)))) (h.sound.onlyHost ho)

theorem turns_of_runs (hs : e.Sound) (h : EmblaRuns e e') : Turns e e' := by
  refine (turns_loop e).runs (fun a name ha => ?_) (fun a parent name ha hp => ?_) (fun a b ha ho hc => ?_)
    (fun a g n ha => ?_) (fun a ha => ?_) (fun a ha => ?_) h ⟨hs, .refl⟩
  · exact ha.next (.unreported (unreported_spawn ha.sound.inv name)) (ha.sound.step (.spawn name a))
  · exact ha.next (.unreported (unreported_spawnChild ha.sound.inv hp name)) (ha.sound.step (.spawnChild hp name))
  · exact ha.next (.unreported (.onlyHost ho hc)) (ha.sound.onlyHost ho)
  · exact ha.next (.unreported ⟨le_refl _, .refl, fun _ _ => .refl _, fun _ hp => .inl hp⟩) (ha.sound.setMaxMembers g n)
  · exact ha.next (.listened ⟨drain_heard a, drain_measured a⟩) ha.sound.drain
  · exact ha.next (.unreported (unreported_yield ha.sound.inv)) (ha.sound.step (.yield a))

/-! ## The account of a run -/

/-- The records of the table: nothing while the process lives, and nothing unreported when it is dead. -/
def Accounted (e : Embla) : Prop :=
  ∀ p, e.Tracked p → ((e.process p).state ≠ .terminated → (e.process p).Open) ∧
    ((e.process p).state = .terminated → (e.process p).Closed e.host)

/-- What was reported on the way, and whose records it left as they were. -/
structure Since (e e' : Embla) : Prop where
  next : e.processHeap.next ≤ e'.processHeap.next
  calls : ∃ calls, e'.host.trace = calls ++ e.host.trace ∧ ∀ p < e.processHeap.next,
    (e'.process p).hostId = (e.process p).hostId ∧
    ((∀ event, .reported event ∈ calls → event.status.Death → event.hostId.pid ≠ (e.process p).hostId) →
      (e.process p).SameAccount (e'.process p))

/-- A process the poll brings no death for shows what it showed. -/
theorem Listened.same (h : Listened e e') (hq : ∀ event, e.host.wait4s.head = .event event → event.status.Death →
    processManagerGetByHostId e.processHeap e.processManager event.hostId.pid ≠ some q) :
    (e.process q).SameAccount (e'.process q) := by
  have husage := h.measured.others q hq
  cases h.heard with
  | told event hw ht hx =>
    obtain ⟨hcode, hsignal, hdead⟩ := ht.others q fun ⟨hd, hget⟩ => hq event hw hd hget
    exact ⟨ht.handled.hostId q, hdead, Prod.ext hcode hsignal, husage⟩
  | silent hw hx =>
    rw [hx]
    exact .refl _

theorem Listened.handled (h : Listened e e') : Handled e e' := by
  cases h.heard with
  | told event hw ht hx => exact ht.handled
  | silent hw hx =>
    rw [hx]
    exact .onlyHost ⟨_, rfl⟩

/-- The trace grows by the report there is. -/
theorem Listened.trace (h : Listened e e') : ∃ calls, e'.host.trace = calls ++ e.host.trace ∧
    ∀ event, .reported event ∈ calls ↔ e.host.wait4s.head = .event event := by
  cases h.heard with
  | told event hw ht hx =>
    refine ⟨[.reported event], hx, fun event' => ?_⟩
    rw [List.mem_singleton, hw]
    constructor
    · rintro ⟨⟩
      rfl
    · rintro ⟨⟩
      rfl
  | silent hw hx =>
    rw [hx]
    exact ⟨[], polled_trace_silent hw, fun event => iff_of_false List.not_mem_nil (hw event)⟩

theorem Since.refl (e : Embla) : Since e e :=
  ⟨le_refl _, [], rfl, fun _ _ => ⟨rfl, fun _ => .refl _⟩⟩

theorem Since.trans {e'' : Embla} (h : Since e e') (h' : Since e' e'') : Since e e'' := by
  obtain ⟨calls, hx, hold⟩ := h.calls
  obtain ⟨more, hy, hnew⟩ := h'.calls
  refine ⟨h.next.trans h'.next, more ++ calls, by rw [hy, hx, List.append_assoc], fun p hp => ?_⟩
  obtain ⟨hid, hsame⟩ := hold p hp
  obtain ⟨hid', hsame'⟩ := hnew p (lt_of_lt_of_le hp h.next)
  refine ⟨hid'.trans hid, fun hno => ?_⟩
  refine (hsame fun event hm => hno event (List.mem_append_right _ hm)).trans (hsame' fun event hm hd => ?_)
  rw [hid]
  exact hno event (List.mem_append_left _ hm) hd

theorem Turn.since (ht : Turn e e') : Since e e' := by
  cases ht with
  | unreported hu =>
    obtain ⟨calls, hx, -⟩ := hu.calls.trace
    exact ⟨hu.next, calls, hx, fun p hp => ⟨(hu.account p hp).hostId, fun _ => hu.account p hp⟩⟩
  | listened hl =>
    obtain ⟨calls, hx, hreported⟩ := hl.trace
    refine ⟨le_of_eq hl.handled.next.symm, calls, hx, fun p _ => ⟨hl.handled.hostId p, fun hno => ?_⟩⟩
    refine hl.same fun event hw hd hget => ?_
    exact hno event ((hreported event).2 hw) hd (getByHostId_some hget).2.1.symm

/-- The process a death is for: it is dead now, and shows this death or an earlier one. -/
theorem Listened.closed (h : Listened e e') (hinv : e.Inv) (ha : e.Accounted) (hw : e.host.wait4s.head = .event event)
    (hd : event.status.Death)
    (hget : processManagerGetByHostId e.processHeap e.processManager event.hostId.pid = some p) :
    (e'.process p).state = .terminated ∧ (e'.process p).Closed e'.host := by
  obtain ⟨hp, hpid, -⟩ := getByHostId_some hget
  have hid := h.handled.hostId p
  have htold : Told event e e' ∧ e'.host.trace = .reported event :: e.host.trace := by
    cases h.heard with
    | told event' hw' ht hx =>
      rw [hw] at hw'
      cases hw'
      exact ⟨ht, hx⟩
    | silent hno => exact absurd hw (hno event)
  obtain ⟨ht, htrace⟩ := htold
  obtain ⟨hcode, hsignal, hdead⟩ := ht.applied p hd hget
  have hnow : e'.host.Died (e'.process p).hostId event := ⟨by rw [htrace]; exact List.mem_cons_self, hd, by rw [hid]; exact hpid.symm⟩
  have hbefore : ∀ {event'}, e.host.Died (e.process p).hostId event' → e'.host.Died (e'.process p).hostId event' :=
    fun he => ⟨by rw [htrace]; exact List.mem_cons_of_mem _ he.reported, he.death, by rw [hid]; exact he.pid⟩
  -- what the record showed before is nothing or reported
  have hcodeBefore : (e.process p).exitCode = -1 ∨
      ∃ event', e'.host.Died (e'.process p).hostId event' ∧ event'.status = .exited (e.process p).exitCode := by
    by_cases hlive : (e.process p).state = .terminated
    · exact ((ha p hp).2 hlive).exitCode.imp_right fun ⟨event', he, hs⟩ => ⟨event', hbefore he, hs⟩
    · exact .inl (congrArg Prod.fst ((ha p hp).1 hlive).1)
  have hsignalBefore : (e.process p).termSignal = -1 ∨
      ∃ event', e'.host.Died (e'.process p).hostId event' ∧ event'.status = .signaled (e.process p).termSignal := by
    by_cases hlive : (e.process p).state = .terminated
    · exact ((ha p hp).2 hlive).termSignal.imp_right fun ⟨event', he, hs⟩ => ⟨event', hbefore he, hs⟩
    · exact .inl (congrArg Prod.snd ((ha p hp).1 hlive).1)
  refine ⟨hdead (hinv.started p hp), ?_, ?_, ?_, ?_⟩
  · rcases h.measured.applied event p hw hd hget with hnew | ⟨hlive, hold⟩
    · exact ⟨event, hnow, by rw [hnew, h.measured.platform]⟩
    · obtain ⟨event', he, hu⟩ := ((ha p hp).2 hlive).usage
      exact ⟨event', hbefore he, by rw [hold, hu, h.measured.platform]⟩
  · refine ⟨event, hnow, ?_⟩
    cases hs : event.status with
    | exited code =>
      rw [hs] at hcode
      rw [hcode]
      exact .inl rfl
    | signaled signal =>
      rw [hs] at hsignal
      rw [hsignal]
      exact .inr rfl
    | _ => rw [hs] at hd; exact hd.elim
  · rw [hcode]
    cases hs : event.status with
    | exited code => exact .inr ⟨event, hnow, hs⟩
    | _ => exact hcodeBefore
  · rw [hsignal]
    cases hs : event.status with
    | signaled signal => exact .inr ⟨event, hnow, hs⟩
    | _ => exact hsignalBefore

theorem Accounted.turn (ha : e.Accounted) (hinv : e.Inv) (ht : Turn e e') : e'.Accounted := by
  obtain ⟨calls, hx, -⟩ := ht.since.calls
  have hreported : ∀ event, .reported event ∈ e.host.trace → .reported event ∈ e'.host.trace := by
    intro event hm
    rw [hx]
    exact List.mem_append_right _ hm
  -- whoever shows what he showed is accounted for as before
  have hkept : ∀ p, e.Tracked p → e'.host.platform = e.host.platform → (e.process p).SameAccount (e'.process p) →
      ((e'.process p).state ≠ .terminated → (e'.process p).Open) ∧
        ((e'.process p).state = .terminated → (e'.process p).Closed e'.host) := by
    intro p hp hplatform hs
    obtain ⟨hopen, hclosed⟩ := ha p hp
    refine ⟨fun hlive => ?_, fun hdead => (hclosed (hs.dead.1 hdead)).mono hs hplatform hreported⟩
    obtain ⟨h1, h2⟩ := hopen fun hc => hlive (hs.dead.2 hc)
    exact ⟨hs.ending.trans h1, hs.usage.trans h2⟩
  intro p hp
  cases ht with
  | unreported hu =>
    rcases hu.tracked p hp with hold | ⟨hopen, hlive⟩
    · exact hkept p hold hu.calls.kept.1 (hu.account p (hinv.alloc hold))
    · exact ⟨fun _ => hopen, fun hc => absurd hc hlive⟩
  | listened hl =>
    have hold := (hl.handled.tracked p).1 hp
    by_cases hhit : ∃ event, e.host.wait4s.head = .event event ∧ event.status.Death ∧
        processManagerGetByHostId e.processHeap e.processManager event.hostId.pid = some p
    · obtain ⟨event, hw, hd, hget⟩ := hhit
      obtain ⟨hdead, hclosed⟩ := hl.closed hinv ha hw hd hget
      exact ⟨fun hc => absurd hdead hc, fun _ => hclosed⟩
    · exact hkept p hold hl.measured.platform (hl.same fun event hw hd hget => hhit ⟨event, hw, hd, hget⟩)

theorem Turns.accounted (h : Turns e e') (ha : e.Accounted) : e'.Accounted := by
  obtain ⟨-, hparts⟩ := h
  induction hparts with
  | refl => exact ha
  | tail _ ht ih => exact ih.turn ht.1 ht.2

theorem Turns.since (h : Turns e e') : Since e e' := by
  obtain ⟨-, hparts⟩ := h
  induction hparts with
  | refl => exact .refl e
  | tail _ ht ih => exact ih.trans ht.2.since

/-- In every state of every run: a live process has nothing recorded; what a dead one shows was
reported of its pid, and with a single such report it is exactly that; and from there on a record
changes with a reported death of its pid only. -/
theorem ends_accounted_for {host : Host} (h : EmblaRuns (emblaCreate host) e) (hp : e.Tracked p) :
    ((e.process p).state ≠ .terminated → (e.process p).Open) ∧
    ((e.process p).state = .terminated → (e.process p).Closed e.host ∧
      ∀ event, (∀ other, e.host.Died (e.process p).hostId other → other = event) →
        (e.process p).ending = event.status.ending ∧ (e.process p).usage = event.usage.measured e.host.platform) ∧
    ∀ e', EmblaRuns e e' → ∃ calls, e'.host.trace = calls ++ e.host.trace ∧
      ((∀ event, .reported event ∈ calls → event.status.Death → event.hostId.pid ≠ (e.process p).hostId) →
        (e.process p).SameAccount (e'.process p)) := by
  have hsound := sound_of_runs h
  have hstart : (emblaCreate host).Accounted := fun q hq => absurd hq List.not_mem_nil
  have hall := (turns_of_runs (sound_create host) h).accounted hstart
  refine ⟨(hall p hp).1, fun hdead => ?_, fun e' h' => ?_⟩
  · have hclosed := (hall p hp).2 hdead
    exact ⟨hclosed, fun event hone => hclosed.single hone⟩
  · obtain ⟨calls, hx, hsame⟩ := (turns_of_runs hsound h').since.calls
    exact ⟨calls, hx, (hsame p (hsound.inv.alloc hp)).2⟩

end Embla

/-- The death of the first child by SIGKILL, with what it used. -/
def killedByNine : ChildEvent :=
  { hostId := ⟨1, Int.one_pos⟩, status := .signaled 9, usage := ⟨⟨2, 500000⟩, ⟨0, 250000⟩, 64⟩ }

/-- One process, and its death drained. -/
def firstKilled : Embla :=
  (serviceRegistryDrainOneEvent (emblaSpawn "init" (emblaCreate (.generous [.event killedByNine] [] 0))).2).2

theorem ends_accounted_for_killed :
    (firstKilled.process 0).ending = (-1, 9) ∧ (firstKilled.process 0).usage = (5 / 2, 1 / 4, 65536) := by
  have hrun : EmblaRuns (emblaCreate (.generous [.event killedByNine] [] 0)) firstKilled :=
    ((Runs.refl _).next (.runtime (.spawn "init")) trivial rfl).next .drainEvent trivial rfl
  have htracked : firstKilled.Tracked 0 := by decide +kernel
  have htrace : firstKilled.host.trace = [.reported killedByNine, .forked 1 0] := by decide +kernel
  obtain ⟨-, hdead, -⟩ := Embla.ends_accounted_for hrun htracked
  obtain ⟨hending, husage⟩ := (hdead (by decide +kernel)).2 killedByNine fun other hd => by
    have hm := hd.reported
    rw [htrace] at hm
    rcases List.mem_cons.1 hm with hc | hm
    · cases hc
      rfl
    · cases List.mem_singleton.1 hm
  refine ⟨hending, husage.trans ?_⟩
  decide +kernel

end EmblaOs
