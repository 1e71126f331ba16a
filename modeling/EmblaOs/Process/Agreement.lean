/-
Embla and its host. Beside the runtime runs the host's own table of Embla's children: a fork enters a
child, a child ends by itself at any time and stays in the table as a zombie until a report or a wait
collects it, and only then may its pid be handed out again. However the two sides interleave, the
children of the table are the live processes of the runtime, one each, no end is lost on the way, and a
dead process shows exactly how its own child ended.
-/
import EmblaOs.Process.Accounts
import EmblaOs.Process.Signals

namespace EmblaOs

open Lib

/-! ## The host's table -/

/-- A child of Embla that has not been waited for. -/
inductive ChildState
  | running
  /-- it has ended, and nobody has been told -/
  | zombie (status : WaitStatus) (usage : Rusage) (ended : status.Death)

/-- The children by pid, and the deaths that were reported, latest first. -/
structure HostTable where
  children : Int → Option ChildState
  deaths : List ChildEvent

namespace HostTable

def boot : HostTable := ⟨fun _ => none, []⟩

def set (t : HostTable) (pid : Int) (child : Option ChildState) : HostTable :=
  { t with children := Function.update t.children pid child }

/-- The table after a call, if it is one the host would have answered so: a fork hands out a pid that no
child has, a wait is for a child that is there, a death is reported of a zombie, with what it ended
with, and anything else of a running child. -/
def answer (t : HostTable) : HostCall → Option HostTable
  | .forked pid _ =>
    match t.children pid with
    | none => some (t.set pid (some .running))
    | some _ => none
  | .collected pid =>
    match t.children pid with
    | none => none
    | some _ => some (t.set pid none)
  | .reported event =>
    match t.children event.hostId.pid with
    | none => none
    | some .running => if event.status.Death then none else some t
    | some (.zombie status usage _) =>
      if event.status = status ∧ event.usage = usage then
        some { t.set event.hostId.pid none with deaths := event :: t.deaths }
      else none
  | .killed _ _ _ => some t
  | .killedGroup _ _ _ => some t

/-- The table after some calls, first one first. -/
def replay (t : HostTable) : List HostCall → Option HostTable
  | [] => some t
  | call :: calls => (t.answer call).bind fun t' => t'.replay calls

/-- Nobody has ended unnoticed. -/
def Quiet (t : HostTable) : Prop := ∀ pid status usage ended, t.children pid ≠ some (.zombie status usage ended)

/-- How the last child with this pid ended. -/
def lastDeath (t : HostTable) (pid : Int) : Option ChildEvent := t.deaths.find? fun event => event.hostId.pid = pid

variable {t t' : HostTable} {pid group : Int} {event : ChildEvent}

theorem answer_forked (h : t.answer (.forked pid group) = some t') :
    t.children pid = none ∧ t' = t.set pid (some .running) := by
  cases hc : t.children pid with
  | none =>
    simp only [answer, hc] at h
    exact ⟨rfl, (Option.some.inj h).symm⟩
  | some c =>
    simp only [answer, hc] at h
    cases h

theorem answer_collected (h : t.answer (.collected pid) = some t') : t' = t.set pid none := by
  cases hc : t.children pid with
  | none =>
    simp only [answer, hc] at h
    cases h
  | some c =>
    simp only [answer, hc] at h
    exact (Option.some.inj h).symm

/-- A death is reported of a zombie, with what it ended with, and anything else of a running child. -/
theorem answer_reported (h : t.answer (.reported event) = some t') :
    (t.children event.hostId.pid = some .running ∧ ¬ event.status.Death ∧ t' = t) ∨
      ∃ ended, t.children event.hostId.pid = some (.zombie event.status event.usage ended) ∧
        t' = { t.set event.hostId.pid none with deaths := event :: t.deaths } := by
  rcases hc : t.children event.hostId.pid with _ | _ | ⟨status, usage, ended⟩ <;> simp only [answer, hc] at h
  · cases h
  · split at h
    · cases h
    · rename_i halive
      exact .inl ⟨rfl, halive, (Option.some.inj h).symm⟩
  · split at h
    · rename_i hsame
      obtain ⟨rfl, rfl⟩ := hsame
      exact .inr ⟨ended, rfl, (Option.some.inj h).symm⟩
    · cases h

/-- A fork that is taken back changes nothing. -/
theorem replay_takenBack {signal : Signal} {killed : KillAnswer}
    (h : t.replay [.forked pid group, .killed pid signal killed, .collected pid] = some t') : t' = t := by
  simp only [replay, Option.bind_eq_some_iff] at h
  obtain ⟨t₁, h₁, t₂, h₂, t₃, h₃, h⟩ := h
  obtain ⟨hfree, rfl⟩ := answer_forked h₁
  cases h₂
  cases h
  rw [answer_collected h₃]
  unfold set
  simp only [Function.update_idem]
  rw [← hfree, Function.update_eq_self]

end HostTable

/-! ## Both sides together -/

structure Machine where
  embla : Embla
  table : HostTable

/-- The calls made between two states, first one first. -/
def newCalls (e e' : Embla) : List HostCall := (e'.host.trace.take (e'.host.trace.length - e.host.trace.length)).reverse

inductive MachineOp
  | call (op : SignalOp)
  | dispatch
  | yield
  | stop
  /-- a child ends -/
  | ends (pid : Int) (status : WaitStatus) (usage : Rusage)

/-- An operation of Embla goes together with what the host makes of its calls. -/
def MachineOp.exec : MachineOp → Machine → Option Machine
  | .call op, x =>
    match op.exec x.embla with
    | none => none
    | some e => (x.table.replay (newCalls x.embla e)).map fun table => ⟨e, table⟩
  | .dispatch, x => some { x with embla := (emblaDispatch x.embla).2 }
  | .yield, x => some { x with embla := (emblaYield x.embla).2 }
  | .stop, x => some { x with embla := emblaStop x.embla }
  | .ends pid status usage, x =>
    if ended : status.Death then
      match x.table.children pid with
      | some .running => some { x with table := x.table.set pid (some (.zombie status usage ended)) }
      | _ => none
    else none

/-- What the host guarantees besides: a fork hands out no pid of a process that is still in the table of
the runtime, and a child that was just forked can be killed and waited for. -/
def MachineOp.Possible (x : Machine) : MachineOp → Prop
  | .call op => op.Fresh x.embla ∧ (op.Spawns → x.embla.host.CanTakeBack)
  | _ => True

/-- Any interleaving of the two sides. -/
abbrev MachineRuns (host : Host) (x : Machine) : Prop :=
  Runs MachineOp.exec MachineOp.Possible ⟨emblaCreate host, .boot⟩ x

theorem newCalls_append {e e' : Embla} (calls : List HostCall) (h : e'.host.trace = calls ++ e.host.trace) :
    newCalls e e' = calls.reverse := by
  unfold newCalls
  rw [h, List.length_append, Nat.add_sub_cancel, List.take_left]

namespace Embla

variable {e e' : Embla} {t t' : HostTable} {p : ProcessPtr} {event : ChildEvent}

/-- The record shows this death and what was used up to then. -/
def Shows (e : Embla) (p : ProcessPtr) (event : ChildEvent) : Prop :=
  (e.process p).ending = event.status.ending ∧ (e.process p).usage = event.usage.measured e.host.platform

/-- The runtime and the host agree: the children are the live processes, which show nothing yet, and a
dead process shows how the last child with its pid ended. -/
structure Agrees (e : Embla) (t : HostTable) : Prop where
  child : ∀ pid, t.children pid ≠ none ↔ ∃ p, e.Alive p ∧ (e.process p).hostId = pid
  pids : e.DistinctPids
  opened : ∀ p, e.Alive p → (e.process p).Open
  ended : ∀ p, e.Tracked p → (e.process p).state = .terminated →
    ∃ event, t.lastDeath (e.process p).hostId = some event ∧ e.Shows p event

theorem agrees_create (host : Host) : (emblaCreate host).Agrees .boot :=
  ⟨fun _ => iff_of_false (not_not_intro rfl) fun ⟨_, hp, _⟩ => absurd hp.1 List.not_mem_nil,
    fun _ _ hp => absurd hp List.not_mem_nil, fun _ hp => absurd hp.1 List.not_mem_nil,
    fun _ hp => absurd hp List.not_mem_nil⟩

/-! ## Without a report -/

/-- The records show what they showed, and whoever left the table was dead. -/
theorem Agrees.kept (h : e.Agrees t) (hplatform : e'.host.platform = e.host.platform)
    (hsame : ∀ p, e.Tracked p → (e.process p).SameAccount (e'.process p)) (htracked : ∀ p, e'.Tracked p → e.Tracked p)
    (halive : ∀ p, e.Alive p → e'.Tracked p) : e'.Agrees t := by
  have hlive : ∀ p, e'.Alive p ↔ e.Alive p := by
    intro p
    constructor
    · rintro ⟨hp, hne⟩
      exact ⟨htracked p hp, fun hc => hne ((hsame p (htracked p hp)).dead.2 hc)⟩
    · intro hp
      exact ⟨halive p hp, fun hc => hp.2 ((hsame p hp.1).dead.1 hc)⟩
  refine ⟨fun pid => ?_, h.pids.congr htracked fun p hp => (hsame p hp).hostId, fun p hp => ?_, fun p hp hdead => ?_⟩
  · rw [h.child pid]
    constructor
    · rintro ⟨p, hp, hpid⟩
      exact ⟨p, (hlive p).2 hp, (hsame p hp.1).hostId.trans hpid⟩
    · rintro ⟨p, hp, hpid⟩
      have hp' := (hlive p).1 hp
      exact ⟨p, hp', (hsame p hp'.1).hostId.symm.trans hpid⟩
  · obtain ⟨hending, husage⟩ := h.opened p ((hlive p).1 hp)
    have hs := hsame p (htracked p hp.1)
    exact ⟨hs.ending.trans hending, hs.usage.trans husage⟩
  · have hs := hsame p (htracked p hp)
    obtain ⟨event, hlast, hending, husage⟩ := h.ended p (htracked p hp) (hs.dead.1 hdead)
    rw [hs.hostId]
    exact ⟨event, hlast, hs.ending.trans hending, hs.usage.trans (by rw [husage, hplatform])⟩

/-- Nobody joins and only the dead leave. -/
theorem Agrees.unreported (h : e.Agrees t) (hinv : e.Inv) (hu : Unreported e e') (htracked : ∀ p, e'.Tracked p → e.Tracked p)
    (halive : ∀ p, e.Alive p → e'.Tracked p) : e'.Agrees t :=
  h.kept hu.calls.kept.1 (fun p hp => hu.account p (hinv.alloc hp)) htracked halive

/-- The child that was forked is the one of the new process. -/
theorem Agrees.spawned (h : e.Agrees t) (hinv : e.Inv) (hu : Unreported e e') (hd : e'.DistinctPids) {pid : Int}
    (htracked : ∀ q, e'.Tracked q ↔ e.Tracked q ∨ q = p) (hpid : (e'.process p).hostId = pid)
    (hlive : (e'.process p).state ≠ .terminated) (hopen : (e'.process p).Open) (hnew : ¬ e.Tracked p) :
    e'.Agrees (t.set pid (some .running)) := by
  have hsame : ∀ q, e.Tracked q → (e.process q).SameAccount (e'.process q) := fun q hq => hu.account q (hinv.alloc hq)
  have hpt : e'.Tracked p := (htracked p).2 (.inr rfl)
  have hother : ∀ q, e.Tracked q → (e'.process q).hostId ≠ pid := by
    intro q hq hc
    obtain rfl := hd q p ((htracked q).2 (.inl hq)) hpt (hc.trans hpid.symm)
    exact hnew hq
  refine ⟨fun pid' => ?_, hd, fun q hq => ?_, fun q hq hdead => ?_⟩
  · unfold HostTable.set
    simp only
    rcases eq_or_ne pid' pid with rfl | hne
    · rw [Function.update_self]
      exact iff_of_true (Option.some_ne_none _) ⟨p, ⟨hpt, hlive⟩, hpid⟩
    · rw [Function.update_of_ne hne, h.child pid']
      constructor
      · rintro ⟨q, hq, hqid⟩
        exact ⟨q, ⟨(htracked q).2 (.inl hq.1), fun hc => hq.2 ((hsame q hq.1).dead.1 hc)⟩, (hsame q hq.1).hostId.trans hqid⟩
      · rintro ⟨q, hq, hqid⟩
        rcases (htracked q).1 hq.1 with hold | rfl
        · exact ⟨q, ⟨hold, fun hc => hq.2 ((hsame q hold).dead.2 hc)⟩, (hsame q hold).hostId.symm.trans hqid⟩
        · exact absurd (hqid.symm.trans hpid) hne
  · rcases (htracked q).1 hq.1 with hold | rfl
    · have hs := hsame q hold
      obtain ⟨hending, husage⟩ := h.opened q ⟨hold, fun hc => hq.2 (hs.dead.2 hc)⟩
      exact ⟨hs.ending.trans hending, hs.usage.trans husage⟩
    · exact hopen
  · rcases (htracked q).1 hq with hold | rfl
    · have hs := hsame q hold
      obtain ⟨event, hlast, hending, husage⟩ := h.ended q hold (hs.dead.1 hdead)
      rw [hs.hostId]
      exact ⟨event, hlast, hs.ending.trans hending, hs.usage.trans (by rw [husage, hu.calls.kept.1])⟩
    · exact absurd hdead hlive

/-! ## A report -/

/-- The lookup finds the process whose child it is. -/
theorem Agrees.lookup (h : e.Agrees t) (hp : e.Tracked p) (hpid : (e.process p).hostId = event.hostId.pid) :
    processManagerGetByHostId e.processHeap e.processManager event.hostId.pid = some p := by
  have hvalid : event.hostId.pid ≠ emblaInvalidHostPid := by
    have := event.hostId.pos
    unfold emblaInvalidHostPid
    omega
  cases hget : processManagerGetByHostId e.processHeap e.processManager event.hostId.pid with
  | none => exact absurd hpid ((getByHostId_none hvalid).1 hget p hp)
  | some q =>
    obtain ⟨hq, hqid, -⟩ := getByHostId_some hget
    rw [h.pids q p hq hp (hqid.trans hpid.symm)]

/-- A process that showed nothing shows the death that is noted for it. -/
theorem Process.Open.noted {r r' : Process} (h : r.Open) {status : WaitStatus} (hd : status.Death)
    (hcode : r'.exitCode = (WaitStatus.note status r).exitCode) (hsignal : r'.termSignal = (WaitStatus.note status r).termSignal) :
    r'.ending = status.ending := by
  have hboth : (r.exitCode, r.termSignal) = (-1, -1) := h.1
  obtain ⟨hc, hs⟩ := Prod.mk.inj hboth
  unfold Process.ending
  rw [hcode, hsignal]
  cases status with
  | exited code => exact Prod.ext rfl hs
  | signaled signal => exact Prod.ext hc rfl
  | _ => exact hd.elim

/-- A death takes the child out of the table and is shown by its process. -/
theorem Agrees.death (h : e.Agrees t) (hinv : e.Inv) (hl : Listened e e') (hw : e.host.wait4s.head = .event event)
    (hd : event.status.Death) (hthere : t.children event.hostId.pid ≠ none) :
    e'.Agrees { t.set event.hostId.pid none with deaths := event :: t.deaths } := by
  obtain ⟨p, hp, hpid⟩ := (h.child _).1 hthere
  have hget := h.lookup hp.1 hpid
  have htracked := hl.handled.tracked
  have hid := hl.handled.hostId
  have hdistinct : e'.DistinctPids := h.pids.congr (fun q hq => (htracked q).1 hq) fun q _ => hid q
  -- the process the death is of
  have hshows : (e'.process p).state = .terminated ∧ e'.Shows p event := by
    cases hl.heard with
    | told event' hw' ht =>
      obtain rfl : event = event' := Wait4Answer.event.inj (hw.symm.trans hw')
      obtain ⟨hcode, hsignal, hdead⟩ := ht.applied p hd hget
      refine ⟨hdead (hinv.started p hp.1), Process.Open.noted (h.opened p hp) hd hcode hsignal, ?_⟩
      rw [hl.measured.platform]
      exact (hl.measured.applied event p hw hd hget).resolve_right fun hc => hp.2 hc.1
    | silent hno => exact absurd hw (hno event)
  -- the other processes
  have hsame : ∀ q, q ≠ p → (e.process q).SameAccount (e'.process q) := by
    intro q hne
    refine hl.same fun event' hw' _ hget' => hne ?_
    obtain rfl : event = event' := Wait4Answer.event.inj (hw.symm.trans hw')
    exact Option.some.inj (hget'.symm.trans hget)
  have hlive : ∀ q, e'.Alive q ↔ e.Alive q ∧ q ≠ p := by
    intro q
    rcases eq_or_ne q p with rfl | hne
    · exact iff_of_false (fun hc => hc.2 hshows.1) fun hc => hc.2 rfl
    · unfold Alive
      rw [htracked q, ne_eq, (hsame q hne).dead, and_iff_left hne]
  refine ⟨fun pid => ?_, hdistinct, fun q hq => ?_, fun q hq hdead => ?_⟩
  · unfold HostTable.set
    simp only
    rcases eq_or_ne pid event.hostId.pid with rfl | hne
    · rw [Function.update_self]
      refine iff_of_false (not_not_intro rfl) ?_
      rintro ⟨q, hq, hqid⟩
      obtain ⟨hq', hne⟩ := (hlive q).1 hq
      exact hne (h.pids q p hq'.1 hp.1 ((hid q).symm.trans (hqid.trans hpid.symm)))
    · rw [Function.update_of_ne hne, h.child pid]
      constructor
      · rintro ⟨q, hq, hqid⟩
        have hqp : q ≠ p := by
          rintro rfl
          exact hne (hqid.symm.trans hpid)
        exact ⟨q, (hlive q).2 ⟨hq, hqp⟩, (hid q).trans hqid⟩
      · rintro ⟨q, hq, hqid⟩
        exact ⟨q, ((hlive q).1 hq).1, (hid q).symm.trans hqid⟩
  · obtain ⟨hq', hne⟩ := (hlive q).1 hq
    obtain ⟨hending, husage⟩ := h.opened q hq'
    exact ⟨(hsame q hne).ending.trans hending, (hsame q hne).usage.trans husage⟩
  · unfold HostTable.lastDeath
    rcases eq_or_ne q p with rfl | hne
    · refine ⟨event, ?_, hshows.2⟩
      rw [List.find?_cons_of_pos]
      rw [hid, hpid]
      exact decide_eq_true rfl
    · have hs := hsame q hne
      have hq' := (htracked q).1 hq
      obtain ⟨last, hlast, hending, husage⟩ := h.ended q hq' (hs.dead.1 hdead)
      refine ⟨last, ?_, hs.ending.trans hending, hs.usage.trans (by rw [husage, hl.measured.platform])⟩
      rw [List.find?_cons_of_neg, hs.hostId]
      · exact hlast
      · rw [hid, decide_eq_true_eq]
        exact fun hc => hne (h.pids q p hq' hp.1 (hc.symm.trans hpid.symm))

/-! ## Every operation -/

theorem replay_none (hx : e'.host.trace = e.host.trace) (h : t.replay (newCalls e e') = some t') : t' = t := by
  rw [newCalls_append [] hx] at h
  exact (Option.some.inj h).symm

theorem replay_one {call : HostCall} (hx : e'.host.trace = call :: e.host.trace)
    (h : t.replay (newCalls e e') = some t') : t.answer call = some t' := by
  rw [newCalls_append [call] hx] at h
  simpa [HostTable.replay] using h

theorem replay_attempted (ha : e.host.Attempted e'.host) (hback : e.host.CanTakeBack)
    (h : t.replay (newCalls e e') = some t') : t' = t := by
  rcases ha.takenBack hback with hx | ⟨pid, group, hx⟩
  · exact replay_none hx h
  · rw [newCalls_append [.collected pid, .killed pid .sigkill .ok, .forked pid group] hx] at h
    exact HostTable.replay_takenBack h

theorem replay_signal {signal : Signal} (h : t.replay (newCalls e (executorSignal p signal e).2) = some t') : t' = t := by
  rcases executorSignal_trace p signal e with hx | ⟨answer, hx⟩
  · exact replay_none (by rw [hx]) h
  · exact (Option.some.inj (replay_one hx h)).symm

/-- A spawn that succeeds, perhaps into a group made for it. -/
theorem Agrees.launched (h : e.Agrees t) (hinv : e.Inv) {e₀ : Embla} {parentId : Nat} {name : String} {g : GroupPtr}
    (hs : Spawned parentId name g e₀ e') (hheap : e₀.processHeap = e.processHeap)
    (htable : e₀.processManager = e.processManager) (htrace : e₀.host.trace = e.host.trace) (hu : Unreported e e')
    (hd : e'.DistinctPids) (hreplay : t.replay (newCalls e e') = some t') : e'.Agrees t' := by
  obtain ⟨child, -, hnew, -, hx⟩ := hs.record
  rw [htrace] at hx
  obtain ⟨-, rfl⟩ := HostTable.answer_forked (replay_one hx hreplay)
  rw [hheap] at hnew
  refine h.spawned hinv hu hd (fun q => ?_) (congrArg Process.hostId hnew) ?_ ?_ fun hc => absurd (hinv.alloc hc) (lt_irrefl _)
  · rw [hs.tracked q, hheap]
    unfold Tracked
    rw [htable]
  · rw [hnew]
    exact fun hc => by cases hc
  · rw [hnew]
    exact ⟨rfl, rfl⟩

theorem Agrees.refused (h : e.Agrees t) (hinv : e.Inv) (hu : Unreported e e') (hsame : SameTables e e')
    (ha : e.host.Attempted e'.host) (hback : e.host.CanTakeBack) (hreplay : t.replay (newCalls e e') = some t') :
    e'.Agrees t' := by
  rw [replay_attempted ha hback hreplay]
  exact h.unreported hinv hu (fun q hq => (hsame.tracked q).1 hq) fun q hq => (hsame.tracked q).2 hq.1

theorem Agrees.spawn (h : e.Agrees t) (hinv : e.Inv) (hfresh : e.FreshFork) (hback : e.host.CanTakeBack) (name : String)
    (hreplay : t.replay (newCalls e (emblaSpawn name e).2) = some t') : (emblaSpawn name e).2.Agrees t' := by
  have hu := unreported_spawn hinv name
  by_cases hs : e.Spawnable
  · have hd := h.pids.spawn hinv hfresh name
    obtain ⟨e₁, hx, hl⟩ := emblaSpawn_launched hinv hs name
    rw [hx] at hu hd hreplay ⊢
    exact h.launched hinv hl rfl rfl rfl hu hd hreplay
  · obtain ⟨e₁, hx, hsame, -⟩ := emblaSpawn_failed hinv hs name
    have ha : e.host.Attempted (emblaSpawn name e).2.host := emblaSpawn_attempted (by rw [hx])
    rw [hx] at hu ha hreplay ⊢
    exact h.refused hinv hu hsame ha hback hreplay

theorem Agrees.spawnChild (h : e.Agrees t) (hinv : e.Inv) (hfresh : e.FreshFork) (hback : e.host.CanTakeBack)
    {parent : ProcessPtr} (hp : e.Tracked parent) (name : String)
    (hreplay : t.replay (newCalls e (emblaSpawnChild parent name e).2) = some t') :
    (emblaSpawnChild parent name e).2.Agrees t' := by
  have hu := unreported_spawnChild hinv hp name
  have hd := h.pids.spawnChild hinv hfresh hp name
  obtain ⟨g, -, -, ⟨-, e₁, hx, hs⟩ | ⟨-, e₁, hx, hun⟩⟩ := emblaSpawnChild_cases hinv hp name
  · rw [hx] at hu hd hreplay ⊢
    exact h.launched hinv hs rfl rfl rfl hu hd hreplay
  · have ha : e.host.Attempted (emblaSpawnChild parent name e).2.host := emblaSpawnChild_attempted (by rw [hx])
    rw [hx] at hu ha hreplay ⊢
    exact h.refused hinv hu (hun.sameTables hinv) ha hback hreplay

theorem Agrees.listened (h : e.Agrees t) (hinv : e.Inv) (hl : Listened e e')
    (hreplay : t.replay (newCalls e e') = some t') : e'.Agrees t' := by
  have htracked := hl.handled.tracked
  cases hl.heard with
  | told event hw ht hx =>
    rcases HostTable.answer_reported (replay_one hx hreplay) with ⟨-, halive, rfl⟩ | ⟨hd, hzombie, rfl⟩
    · refine h.kept hl.measured.platform (fun q _ => hl.same fun event' hw' hd => ?_) (fun q hq => (htracked q).1 hq)
        fun q hq => (htracked q).2 hq.1
      obtain rfl : event = event' := Wait4Answer.event.inj (hw.symm.trans hw')
      exact absurd hd halive
    · exact h.death hinv hl hw hd (by rw [hzombie]; exact Option.some_ne_none _)
  | silent hw hx =>
    rw [replay_none (by rw [hx]; exact polled_trace_silent hw) hreplay]
    exact h.kept hl.measured.platform (fun q _ => hl.same fun event hw' => absurd hw' (hw event))
      (fun q hq => (htracked q).1 hq) fun q hq => (htracked q).2 hq.1

/-- Only the dead are reaped. -/
theorem Agrees.reaped (h : e.Agrees t) (hinv : e.Inv) (hr : Reaped p e e') (hdead : (e.process p).state = .terminated)
    (hreplay : t.replay (newCalls e e') = some t') : e'.Agrees t' := by
  rw [replay_none (by rw [hr.host]) hreplay]
  refine h.unreported hinv hr.unreported (fun q hq => ((hr.tracked q).1 hq).1) fun q hq => (hr.tracked q).2 ⟨hq.1, ?_⟩
  rintro rfl
  exact hq.2 hdead

theorem Agrees.signal (h : e.Agrees t) (hinv : e.Inv) (p : ProcessPtr) (signal : Signal)
    (hreplay : t.replay (newCalls e (executorSignal p signal e).2) = some t') :
    (executorSignal p signal e).2.Agrees t' := by
  rw [replay_signal hreplay]
  have ho := executorSignal_host p signal e
  have hu : Unreported e (executorSignal p signal e).2 := .onlyHost ho (executorSignal_calls p signal e)
  obtain ⟨host, hx⟩ := ho
  rw [hx] at hu ⊢
  exact h.unreported hinv hu (fun q hq => hq) fun q hq => hq.1

/-- A signal that is sent where a guard lets it through. -/
theorem Agrees.guarded (h : e.Agrees t) (hinv : e.Inv) (guard : Prop) [Decidable guard] (p : ProcessPtr) (signal : Signal)
    (hreplay : t.replay (newCalls e (if guard then (-1, e) else executorSignal p signal e).2) = some t') :
    (if guard then (-1, e) else executorSignal p signal e).2.Agrees t' := by
  split at hreplay
  · rw [replay_none rfl hreplay]
    split
    · exact h
    · contradiction
  · split
    · contradiction
    · exact h.signal hinv p signal hreplay

theorem Agrees.exec (h : e.Agrees t) (hs : e.Sound) {op : SignalOp} (hop : op.Fresh e)
    (hback : op.Spawns → e.host.CanTakeBack) (hx : op.exec e = some e') (hreplay : t.replay (newCalls e e') = some t') :
    e'.Agrees t' := by
  obtain ⟨hv, hfresh⟩ := hop
  have hinv := hs.inv
  have hunsent : t.replay (newCalls e e) = some t' → e.Agrees t' := by
    intro hsame
    rw [replay_none rfl hsame]
    exact h
  cases op with
  | spawn name =>
    cases hx
    exact h.spawn hinv (hfresh trivial) (hback trivial) name hreplay
  | spawnChild parent name =>
    cases hx
    exact h.spawnChild hinv (hfresh trivial) (hback trivial) hv name hreplay
  | handleEvent =>
    cases hx
    exact h.listened hinv ⟨handleNext_heard e, handleNext_measured hinv⟩ hreplay
  | drainEvent =>
    cases hx
    exact h.listened hinv ⟨drain_heard e, drain_measured e⟩ hreplay
  | reapChild parentId =>
    cases hx
    rcases emblaReapChild_target hinv parentId with ⟨-, he⟩ | ⟨p, e₁, -, -, hdead, he, hr, -⟩ <;> rw [he] at hreplay ⊢
    · exact hunsent hreplay
    · exact h.reaped hinv hr hdead hreplay
  | reapProcess processId =>
    cases hx
    rcases emblaReapProcess_target hinv processId with ⟨-, he⟩ | ⟨p, e₁, -, -, hdead, he, hr⟩ <;> rw [he] at hreplay ⊢
    · exact hunsent hreplay
    · exact h.reaped hinv hr hdead hreplay
  | terminate p =>
    cases hx
    exact h.guarded hinv _ p .sigterm hreplay
  | kill p =>
    cases hx
    exact h.guarded hinv _ p .sigkill hreplay
  | stopProcess p =>
    cases hx
    exact h.guarded hinv _ p .sigstop hreplay
  | continueProcess p =>
    cases hx
    exact h.guarded hinv _ p .sigcont hreplay
  | signalGroup g signal =>
    cases hx
    have htrace := emblaSignalGroup_trace (hs.formed g hv).hostId signal
    obtain rfl := Option.some.inj (replay_one htrace hreplay)
    have ho := emblaSignalGroup_host g signal e
    have hu : Unreported e (emblaSignalGroup g signal e).2 := .onlyHost ho (emblaSignalGroup_calls g signal e)
    obtain ⟨host, hx⟩ := ho
    rw [hx] at hu ⊢
    exact h.unreported hinv hu (fun q hq => hq) fun q hq => hq.1

/-- A child that has ended is still in the table. -/
theorem Agrees.ends (h : e.Agrees t) {pid : Int} (hrunning : t.children pid = some .running) {child : ChildState} :
    e.Agrees (t.set pid (some child)) := by
  refine ⟨fun pid' => ?_, h.pids, h.opened, h.ended⟩
  rw [← h.child pid']
  unfold HostTable.set
  simp only
  rcases eq_or_ne pid' pid with rfl | hne
  · rw [Function.update_self, hrunning]
    exact iff_of_true (Option.some_ne_none _) (Option.some_ne_none _)
  · rw [Function.update_of_ne hne]

end Embla

namespace Machine

variable {x y : Machine} {op : MachineOp}

theorem agrees_step (hs : x.embla.Sound) (h : x.embla.Agrees x.table) (hop : op.Possible x) (hx : op.exec x = some y) :
    y.embla.Sound ∧ y.embla.Agrees y.table := by
  have hinv := hs.inv
  cases op with
  | call op =>
    obtain ⟨hfresh, hback⟩ := hop
    simp only [MachineOp.exec] at hx
    cases he : op.exec x.embla with
    | none =>
      rw [he] at hx
      cases hx
    | some e =>
      rw [he] at hx
      obtain ⟨t, hreplay, rfl⟩ := Option.map_eq_some_iff.1 hx
      exact ⟨hs.signalOp hfresh.1 he, h.exec hs hfresh hback he hreplay⟩
  | dispatch =>
    cases hx
    have htables : ∀ p, (emblaDispatch x.embla).2.Tracked p ↔ x.embla.Tracked p := fun p => Iff.rfl
    exact ⟨hs.step (.dispatch x.embla), h.unreported hinv (Embla.unreported_dispatch hinv) (fun p hp => (htables p).1 hp)
      fun p hp => (htables p).2 hp.1⟩
  | yield =>
    cases hx
    have htables : ∀ p, (emblaYield x.embla).2.Tracked p ↔ x.embla.Tracked p := fun p => Iff.rfl
    exact ⟨hs.step (.yield x.embla), h.unreported hinv (Embla.unreported_yield hinv) (fun p hp => (htables p).1 hp)
      fun p hp => (htables p).2 hp.1⟩
  | stop =>
    cases hx
    unfold emblaStop
    split
    · exact ⟨hs, h⟩
    · exact ⟨hs.step (.state x.embla .stopping), h.kept rfl (fun p _ => .refl _) (fun p hp => hp) fun p hp => hp.1⟩
  | ends pid status usage =>
    simp only [MachineOp.exec] at hx
    split at hx
    · split at hx
      · rename_i hrunning
        cases hx
        exact ⟨hs, h.ends hrunning⟩
      · cases hx
    · cases hx

end Machine

/-- In every state that the two sides reach together: the children of the host's table are those of the
live processes, and no two processes share a pid; a live process shows nothing yet, a dead one exactly
how the last child with its pid ended; and once no child has ended unnoticed every process that is not
dead has a child that runs. -/
theorem host_agrees {host : Host} {x : Machine} (h : MachineRuns host x) :
    (∀ pid, x.table.children pid ≠ none ↔ ∃ p, x.embla.Alive p ∧ (x.embla.process p).hostId = pid) ∧
    x.embla.DistinctPids ∧
    (∀ p, x.embla.Alive p → (x.embla.process p).Open) ∧
    (∀ p, x.embla.Tracked p → (x.embla.process p).state = .terminated →
      ∃ event, x.table.lastDeath (x.embla.process p).hostId = some event ∧ x.embla.Shows p event) ∧
    (x.table.Quiet → ∀ p, x.embla.Alive p → x.table.children (x.embla.process p).hostId = some .running) := by
  have hall : x.embla.Sound ∧ x.embla.Agrees x.table :=
    Runs.holds (I := fun x => x.embla.Sound ∧ x.embla.Agrees x.table)
      (fun _ _ _ hI hop hx => Machine.agrees_step hI.1 hI.2 hop hx) h ⟨Embla.sound_create host, Embla.agrees_create host⟩
  obtain ⟨-, hchild, hpids, hopened, hended⟩ := hall
  refine ⟨hchild, hpids, hopened, hended, fun hquiet p hp => ?_⟩
  rcases hc : x.table.children (x.embla.process p).hostId with _ | _ | ⟨status, usage, ended⟩
  · exact absurd hc ((hchild _).2 ⟨p, hp, rfl⟩)
  · rfl
  · exact absurd hc (hquiet _ status usage ended)

/-- A host on which the first child is killed and the second cannot be put into its process group. -/
def secondUngrouped : Host :=
  { Host.generous [.event killedByNine] [] 0 with setpgids := fun n => if n = 1 then .error else .ok }

def Machine.after (op : MachineOp) (x : Machine) : Machine := (op.exec x).getD x

/-- The first child ends and is reported, the second is taken back, the third stays. -/
def thirdMachine : Machine :=
  .after (.call (.spawn "third")) (.after (.call (.spawn "second")) (.after (.call .drainEvent)
    (.after (.ends 1 (.signaled 9) killedByNine.usage) (.after (.call (.spawn "init")) ⟨emblaCreate secondUngrouped, .boot⟩))))

theorem host_agrees_third :
    (∃ event, thirdMachine.table.lastDeath (thirdMachine.embla.process 0).hostId = some event ∧
      thirdMachine.embla.Shows 0 event) ∧
    thirdMachine.table.children 2 = none ∧ thirdMachine.table.children 3 ≠ none := by
  have hspawn : ∀ (x : Machine) (name : String) (child : HostPid), x.embla.host.forks.head = some child →
      x.embla.processManager.processes.all (fun p => (x.embla.process p).hostId ≠ child.pid) = true →
      x.embla.host.CanTakeBack → MachineOp.Possible x (.call (.spawn name)) := by
    refine fun x name child hfork hother hback => ⟨⟨trivial, fun _ => ?_⟩, fun _ => hback⟩
    intro child' hfork' p hp
    obtain rfl := Option.some.inj (hfork.symm.trans hfork')
    exact of_decide_eq_true (List.all_eq_true.1 hother p hp)
  have hrun : MachineRuns secondUngrouped thirdMachine :=
    (((((Runs.refl _).next (.call (.spawn "init")) (hspawn _ _ ⟨1, HostPid.succ_pos 0⟩ rfl rfl ⟨rfl, rfl⟩) rfl).next
      (.ends 1 (.signaled 9) killedByNine.usage) trivial rfl).next (.call .drainEvent)
      ⟨⟨trivial, fun hc => hc.elim⟩, fun hc => hc.elim⟩ rfl).next (.call (.spawn "second"))
      (hspawn _ _ ⟨2, HostPid.succ_pos 1⟩ rfl (by decide +kernel) ⟨rfl, rfl⟩) rfl).next (.call (.spawn "third"))
      (hspawn _ _ ⟨3, HostPid.succ_pos 2⟩ rfl (by decide +kernel) ⟨rfl, rfl⟩) rfl
  obtain ⟨hchild, -, -, hended, -⟩ := host_agrees hrun
  refine ⟨hended 0 (by decide +kernel) (by decide +kernel), ?_, (hchild 3).2 ⟨2, ⟨by decide +kernel, by decide +kernel⟩, by decide +kernel⟩⟩
  by_contra hc
  obtain ⟨p, ⟨hp, -⟩, hpid⟩ := (hchild 2).1 hc
  have hnobody : thirdMachine.embla.processManager.processes.all (fun p => (thirdMachine.embla.process p).hostId ≠ 2) = true := by
    decide +kernel
  exact of_decide_eq_true (List.all_eq_true.1 hnobody p hp) hpid

/-! ## Draining -/

def MachineOp.Polls : MachineOp → Prop
  | .call op => op.Polls
  | _ => False

namespace Embla

variable {e e' e'' : Embla} {t t' t'' : HostTable} {p : ProcessPtr}

/-- What becomes of a process while only reports are taken in: its child and what it shows are as before,
or its child was a zombie, and its end is shown. -/
inductive Fate (e : Embla) (t : HostTable) (e' : Embla) (t' : HostTable) (p : ProcessPtr) : Prop
  | kept (hchild : t'.children (e.process p).hostId = t.children (e.process p).hostId)
      (hsame : (e.process p).SameAccount (e'.process p))
  | shown (status : WaitStatus) (usage : Rusage) (ended : status.Death)
      (hwas : t.children (e.process p).hostId = some (.zombie status usage ended))
      (hgone : t'.children (e.process p).hostId = none) (hid : (e'.process p).hostId = (e.process p).hostId)
      (hdead : (e'.process p).state = .terminated) (hending : (e'.process p).ending = status.ending)
      (husage : (e'.process p).usage = usage.measured e.host.platform)

theorem Fate.trans (h : Fate e t e' t' p) (h' : Fate e' t' e'' t'' p) (hplatform : e'.host.platform = e.host.platform) :
    Fate e t e'' t'' p := by
  cases h with
  | kept hchild hsame =>
    cases h' with
    | kept hchild' hsame' =>
      rw [hsame.hostId] at hchild'
      exact .kept (hchild'.trans hchild) (hsame.trans hsame')
    | shown status usage ended hwas hgone hid hdead hending husage =>
      rw [hsame.hostId] at hwas hgone
      refine .shown status usage ended (hchild.symm.trans hwas) hgone (hid.trans hsame.hostId) hdead hending ?_
      rw [husage, hplatform]
  | shown status usage ended hwas hgone hid hdead hending husage =>
    cases h' with
    | kept hchild' hsame' =>
      rw [hid] at hchild'
      exact .shown status usage ended hwas (hchild'.trans hgone) (hsame'.hostId.trans hid) (hsame'.dead.2 hdead)
        (hsame'.ending.trans hending) (hsame'.usage.trans husage)
    | shown status' usage' ended' hwas' =>
      rw [hid, hgone] at hwas'
      cases hwas'

/-- A report concerns the process of its child and no other. -/
theorem Agrees.fate (h : e.Agrees t) (hinv : e.Inv) (hl : Listened e e') (hreplay : t.replay (newCalls e e') = some t')
    (hp : e.Tracked p) : Fate e t e' t' p := by
  have hafter : e'.Agrees t' := h.listened hinv hl hreplay
  cases hl.heard with
  | silent hw hx =>
    rw [replay_none (by rw [hx]; exact polled_trace_silent hw) hreplay]
    exact .kept rfl (hl.same fun event hw' => absurd hw' (hw event))
  | told event hw ht hx =>
    have hevent : ∀ event', e.host.wait4s.head = .event event' → event' = event := fun event' hw' =>
      Wait4Answer.event.inj (hw'.symm.trans hw)
    rcases HostTable.answer_reported (replay_one hx hreplay) with ⟨-, halive, rfl⟩ | ⟨ended, hzombie, rfl⟩
    · refine .kept rfl (hl.same fun event' hw' hd => ?_)
      rw [hevent event' hw'] at hd
      exact absurd hd halive
    · rcases eq_or_ne (e.process p).hostId event.hostId.pid with hpid | hne
      · -- nobody with this pid lives any more, and its last death is this one
        have hid := hl.handled.hostId p
        have hpt := (hl.handled.tracked p).2 hp
        have hnone : HostTable.children { t.set event.hostId.pid none with deaths := event :: t.deaths } event.hostId.pid =
            none := Function.update_self ..
        have hdead : (e'.process p).state = .terminated := by
          by_contra hlive
          exact (hafter.child _).2 ⟨p, ⟨hpt, hlive⟩, hid.trans hpid⟩ hnone
        obtain ⟨last, hlast, hending, husage⟩ := hafter.ended p hpt hdead
        obtain rfl : event = last := by
          unfold HostTable.lastDeath at hlast
          rw [List.find?_cons_of_pos (by rw [hid, hpid]; exact decide_eq_true rfl)] at hlast
          exact Option.some.inj hlast
        rw [hl.measured.platform] at husage
        exact .shown event.status event.usage ended (by rw [hpid]; exact hzombie) (by rw [hpid]; exact hnone) hid hdead
          hending husage
      · refine .kept (Function.update_of_ne hne ..) (hl.same fun event' hw' _ hget => hne ?_)
        rw [hevent event' hw'] at hget
        exact (getByHostId_some hget).2.1

end Embla

/-- The processes of the table are the same, and the platform. -/
structure Machine.Drains (x y : Machine) : Prop where
  sound : y.embla.Sound
  agrees : y.embla.Agrees y.table
  platform : y.embla.host.platform = x.embla.host.platform
  tracked : ∀ p, y.embla.Tracked p ↔ x.embla.Tracked p
  fate : ∀ p, x.embla.Tracked p → x.embla.Fate x.table y.embla y.table p

theorem Machine.Drains.step {x y z : Machine} {op : MachineOp} (h : x.Drains y) (hop : op.Possible y) (hpolls : op.Polls)
    (hx : op.exec y = some z) : x.Drains z := by
  have hnext := agrees_step h.sound h.agrees hop hx
  cases op with
  | call op =>
    have hinv := h.sound.inv
    simp only [MachineOp.exec] at hx
    cases he : op.exec y.embla with
    | none =>
      rw [he] at hx
      cases hx
    | some e =>
      rw [he] at hx
      obtain ⟨t, hreplay, rfl⟩ := Option.map_eq_some_iff.1 hx
      have hl : Embla.Listened y.embla e := by
        cases op with
        | handleEvent =>
          cases he
          exact ⟨Embla.handleNext_heard _, Embla.handleNext_measured hinv⟩
        | drainEvent =>
          cases he
          exact ⟨Embla.drain_heard _, Embla.drain_measured _⟩
        | _ => exact hpolls.elim
      refine ⟨hnext.1, hnext.2, hl.measured.platform.trans h.platform, fun p => (hl.handled.tracked p).trans (h.tracked p),
        fun p hp => ?_⟩
      exact (h.fate p hp).trans (h.agrees.fate hinv hl hreplay ((h.tracked p).2 hp)) h.platform
  | _ => exact hpolls.elim

/-- While Embla takes in reports and no child ends, each process keeps its child and what it shows, or its
child was a zombie and its record shows that end and no other. Once the host has nothing more to report
the live processes are those whose children ran, and every end there was is shown. -/
theorem drained_exactly {host : Host} {x y : Machine} (h : MachineRuns host x)
    (hdrain : Runs MachineOp.exec (fun x op => op.Possible x ∧ op.Polls) x y) :
    (∀ p, y.embla.Tracked p ↔ x.embla.Tracked p) ∧
    (∀ p, x.embla.Tracked p → x.embla.Fate x.table y.embla y.table p) ∧
    (y.table.Quiet → ∀ p, x.embla.Tracked p →
      (y.embla.Alive p ↔ x.table.children (x.embla.process p).hostId = some .running) ∧
      ∀ status usage ended, x.table.children (x.embla.process p).hostId = some (.zombie status usage ended) →
        (y.embla.process p).state = .terminated ∧ (y.embla.process p).ending = status.ending ∧
          (y.embla.process p).usage = usage.measured x.embla.host.platform) := by
  have hall : x.embla.Sound ∧ x.embla.Agrees x.table :=
    Runs.holds (I := fun x => x.embla.Sound ∧ x.embla.Agrees x.table)
      (fun _ _ _ hI hop hx => Machine.agrees_step hI.1 hI.2 hop hx) h ⟨Embla.sound_create host, Embla.agrees_create host⟩
  have hdrains : x.Drains y :=
    Runs.holds (I := x.Drains) (fun _ _ _ hI hop hx => hI.step hop.1 hop.2 hx) hdrain
      ⟨hall.1, hall.2, rfl, fun _ => Iff.rfl, fun _ _ => .kept rfl (.refl _)⟩
  refine ⟨hdrains.tracked, hdrains.fate, fun hquiet p hp => ⟨⟨fun halive => ?_, fun hrunning => ?_⟩, ?_⟩⟩
  · cases hdrains.fate p hp with
    | kept hchild hsame =>
      have hthere := (hdrains.agrees.child _).2 ⟨p, halive, hsame.hostId⟩
      rw [← hchild]
      rcases hc : y.table.children (x.embla.process p).hostId with _ | _ | ⟨status, usage, ended⟩
      · exact absurd hc hthere
      · rfl
      · exact absurd hc (hquiet _ status usage ended)
    | shown status usage ended hwas hgone hid hdead => exact absurd hdead halive.2
  · have hthere : x.table.children (x.embla.process p).hostId ≠ none := by
      rw [hrunning]
      exact Option.some_ne_none _
    obtain ⟨q, hq, hqp⟩ := (hall.2.child _).1 hthere
    obtain rfl := hall.2.pids q p hq.1 hp hqp
    cases hdrains.fate q hp with
    | kept hchild hsame => exact ⟨(hdrains.tracked q).2 hp, fun hc => hq.2 (hsame.dead.1 hc)⟩
    | shown status usage ended hwas =>
      rw [hrunning] at hwas
      cases hwas
  · intro status usage ended hzombie
    cases hdrains.fate p hp with
    | kept hchild hsame => exact absurd (hchild.trans hzombie) (hquiet _ status usage ended)
    | shown status' usage' ended' hwas hgone hid hdead hending husage =>
      rw [hzombie] at hwas
      cases hwas
      exact ⟨hdead, hending, husage⟩

/-- The first child has ended, and Embla has not been told. -/
def endedMachine : Machine where
  embla := (emblaSpawn "init" (emblaCreate (.generous [.event killedByNine] [] 0))).2
  table := (HostTable.boot.set 1 (some .running)).set 1 (some (.zombie (.signaled 9) killedByNine.usage trivial))

/-- Its death has been drained. -/
def drainedMachine : Machine where
  embla := firstKilled
  table := { endedMachine.table.set 1 none with deaths := [killedByNine] }

theorem endedMachine_runs : MachineRuns (.generous [.event killedByNine] [] 0) endedMachine := by
  have hspawn : MachineOp.Possible ⟨emblaCreate (.generous [.event killedByNine] [] 0), .boot⟩ (.call (.spawn "init")) :=
    ⟨⟨trivial, fun _ _ _ _ hp => absurd hp List.not_mem_nil⟩, fun _ => ⟨rfl, rfl⟩⟩
  exact ((Runs.refl _).next (.call (.spawn "init")) hspawn rfl).next (.ends 1 (.signaled 9) killedByNine.usage) trivial rfl

theorem drained_exactly_killed :
    (firstKilled.process 0).ending = (-1, 9) ∧ (firstKilled.process 0).usage = (5 / 2, 1 / 4, 65536) := by
  have hdrain : Runs MachineOp.exec (fun x op => op.Possible x ∧ op.Polls) endedMachine drainedMachine :=
    (Runs.refl _).next (.call .drainEvent) ⟨⟨⟨trivial, fun hc => hc.elim⟩, fun hc => hc.elim⟩, trivial⟩ rfl
  have hquiet : drainedMachine.table.Quiet := by
    intro pid status usage ended hc
    rcases eq_or_ne pid 1 with rfl | hne <;> simp_all [drainedMachine, endedMachine, HostTable.set, HostTable.boot]
  obtain ⟨-, -, hended⟩ := drained_exactly endedMachine_runs hdrain
  obtain ⟨-, hending, husage⟩ := (hended hquiet 0 (by decide +kernel)).2 (.signaled 9) killedByNine.usage trivial rfl
  refine ⟨hending, husage.trans ?_⟩
  decide +kernel

end EmblaOs
