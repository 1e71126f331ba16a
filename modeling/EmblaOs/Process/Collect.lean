/-
The parent's own waits: executor_wait, executor_poll and executor_terminate, with the loops that call
again after an interruption. While a call is in progress any children may end and a signal may arrive. A
child is collected by exactly one call, and the answer of the call and the record of the process say which
of the three it was: terminate leaves the record of a process that never ended.
-/
import EmblaOs.Process.Agreement

namespace EmblaOs.Collect

open Lib

/-! ## The host -/

/-- What happens while a call is in progress: these children end, and a signal may arrive. -/
structure Moment where
  ends : List (Int × WaitStatus × Rusage)
  interrupted : Bool

/-- The calls that wait for a child: `executor_kill_and_reap`, `executor_wait` and `executor_poll`. -/
inductive Waiter
  | killAndReap
  | wait
  | poll
  deriving DecidableEq

/-- The end of a child, with the call that waited for it. -/
structure Taken where
  pid : Int
  status : WaitStatus
  usage : Rusage
  waiter : Waiter

structure Parent where
  platform : Platform
  children : Int → Option ChildState
  /-- what happens during the next waits -/
  moments : Stream' Moment
  /-- may the next signal be sent to a child that is there -/
  permits : Stream' Bool
  heap : Heap Process
  /-- the ends taken so far, latest first -/
  taken : List Taken

/-- A running child that ends becomes a zombie. -/
def endChild (children : Int → Option ChildState) (ending : Int × WaitStatus × Rusage) : Int → Option ChildState :=
  match children ending.1 with
  | some .running =>
    if ended : ending.2.1.Death then Function.update children ending.1 (some (.zombie ending.2.1 ending.2.2 ended))
    else children
  | _ => children

inductive WaitAnswer
  | child (status : WaitStatus) (usage : Rusage)
  /-- `WNOHANG`, and the child has not ended -/
  | nothing
  | echild
  | eintr

/-- `wait4` on a single child, with or without `WNOHANG`; `none` when it does not return. Who waits is only
written down. -/
def wait4 (waiter : Waiter) (pid : Int) (nohang : Bool) (x : Parent) : Option (WaitAnswer × Parent) :=
  let y := { x with
    children := x.moments.head.ends.foldl endChild x.children
    moments := x.moments.tail }
  match y.children pid with
  | none => some (.echild, y)
  | some (.zombie status usage _) =>
    some (.child status usage, { y with
      children := Function.update y.children pid none
      taken := ⟨pid, status, usage, waiter⟩ :: y.taken })
  | some .running =>
    if x.moments.head.interrupted then some (.eintr, y)
    else if nohang then some (.nothing, y)
    else none

/-- `kill(pid, SIGKILL)`: the child ends at some later moment. -/
def kill (pid : Int) (x : Parent) : KillAnswer × Parent :=
  match x.children pid with
  | none => (.esrch, x)
  | some _ => (if x.permits.head then .ok else .error, { x with permits := x.permits.tail })

/-! ## The executor -/

/-- The loop of `executor_wait4_retry`; `none` when it has not returned after `fuel` calls. -/
def executorWait4Retry (waiter : Waiter) (pid : Int) (nohang : Bool) : Nat → Parent → Option (WaitAnswer × Parent)
  | 0, _ => none
  | fuel + 1, x =>
    match wait4 waiter pid nohang x with
    | some (.eintr, y) => executorWait4Retry waiter pid nohang fuel y
    | answer => answer

/-- `waitpid` is `wait4` without the usage. -/
def executorWaitpidRetry (waiter : Waiter) (pid : Int) (nohang : Bool) (fuel : Nat) (x : Parent) :
    Option (WaitAnswer × Parent) :=
  executorWait4Retry waiter pid nohang fuel x

def executorKillAndReap (pid : Int) (fuel : Nat) (x : Parent) : Option (Int × Parent) :=
  let (answer, x) := kill pid x
  if answer = .error then some (-1, x)
  else
    match executorWaitpidRetry .killAndReap pid false fuel x with
    | none => none
    | some (.child _ _, x) => some (0, x)
    | some (_, x) => some (-1, x)

def executorApplyTermination (process : Process) (status : WaitStatus) : Int × Process :=
  let process :=
    match status with
    | .exited code => { process with exitCode := code }
    | .signaled signal => { process with termSignal := signal }
    | _ => process
  let (result, process) := processTransition process .terminated
  if result ≠ 0 then (-1, process) else (0, process)

def executorTerminate (process : ProcessPtr) (fuel : Nat) (x : Parent) : Option (Int × Parent) :=
  if (x.heap.read process).hostId = emblaInvalidHostPid then some (-1, x)
  else executorKillAndReap (x.heap.read process).hostId fuel x

/-- The return value, what is stored in `*status` and what is left. -/
def executorWait (process : ProcessPtr) (fuel : Nat) (x : Parent) : Option (Int × Option WaitStatus × Parent) :=
  if (x.heap.read process).hostId = emblaInvalidHostPid then some (-1, none, x)
  else
    match executorWait4Retry .wait (x.heap.read process).hostId false fuel x with
    | none => none
    | some (.child status usage, x) =>
      let (result, record) := executorApplyTermination (x.heap.read process) status
      if result ≠ 0 then some (-1, none, { x with heap := x.heap.modify process fun _ => record })
      else
        some (0, some status,
          { x with heap := x.heap.modify process fun _ => executorApplyRusage x.platform record usage })
    | some (_, x) => some (-1, none, x)

def executorPoll (process : ProcessPtr) (fuel : Nat) (x : Parent) : Option (Int × Parent) :=
  if (x.heap.read process).hostId = emblaInvalidHostPid then some (-1, x)
  else
    match executorWaitpidRetry .poll (x.heap.read process).hostId true fuel x with
    | none => none
    | some (.child status _, x) =>
      if ¬ status.Death then some (0, x)
      else
        let (result, record) := executorApplyTermination (x.heap.read process) status
        let x := { x with heap := x.heap.modify process fun _ => record }
        if result ≠ 0 then some (-1, x) else some (1, x)
    | some (.nothing, x) => some (0, x)
    | some (_, x) => some (-1, x)

/-- The parent's side of `executor_spawn`, with what `fork` and `setpgid` answer. -/
def executorSpawn (process : ProcessPtr) (fork : Option HostPid) (setpgid : SetpgidAnswer) (fuel : Nat) (x : Parent) :
    Option (Int × Parent) :=
  match fork with
  | none => some (-1, x)
  | some pid =>
    let x := { x with children := Function.update x.children pid.pid (some .running) }
    if setpgid = .error then
      match executorKillAndReap pid.pid fuel x with
      | none => none
      | some (_, x) => some (-1, x)
    else some (0, { x with heap := x.heap.modify process fun p => { p with hostId := pid.pid } })

/-! ## What a wait does -/

section Waits

variable {x y : Parent} {waiter : Waiter} {pid : Int} {nohang : Bool} {fuel : Nat} {answer : WaitAnswer}

/-- The same children are there; some may have ended. -/
structure Passed (x y : Parent) : Prop where
  platform : y.platform = x.platform
  there : ∀ pid, y.children pid = none ↔ x.children pid = none
  heap : y.heap = x.heap
  taken : y.taken = x.taken

/-- The end of the child `pid` was taken. -/
structure Took (waiter : Waiter) (pid : Int) (status : WaitStatus) (usage : Rusage) (x y : Parent) : Prop where
  platform : y.platform = x.platform
  was : x.children pid ≠ none
  gone : y.children pid = none
  there : ∀ pid', pid' ≠ pid → (y.children pid' = none ↔ x.children pid' = none)
  heap : y.heap = x.heap
  taken : y.taken = ⟨pid, status, usage, waiter⟩ :: x.taken
  death : status.Death

theorem Passed.refl (x : Parent) : Passed x x := ⟨rfl, fun _ => Iff.rfl, rfl, rfl⟩

theorem Passed.trans {z : Parent} (h : Passed x y) (h' : Passed y z) : Passed x z :=
  ⟨h'.platform.trans h.platform, fun pid => (h'.there pid).trans (h.there pid), h'.heap.trans h.heap, h'.taken.trans h.taken⟩

theorem Passed.took {z : Parent} {status : WaitStatus} {usage : Rusage} (h : Passed x y) (h' : Took waiter pid status usage y z) :
    Took waiter pid status usage x z :=
  ⟨h'.platform.trans h.platform, fun hc => h'.was ((h.there pid).2 hc), h'.gone,
    fun pid' hne => (h'.there pid' hne).trans (h.there pid'), h'.heap.trans h.heap, by rw [h'.taken, h.taken], h'.death⟩

theorem endChild_there (children : Int → Option ChildState) (ending : Int × WaitStatus × Rusage) (pid : Int) :
    endChild children ending pid = none ↔ children pid = none := by
  unfold endChild
  rcases hc : children ending.1 with _ | _ | _
  · rfl
  · by_cases ended : ending.2.1.Death
    · simp only [dif_pos ended]
      rcases eq_or_ne pid ending.1 with rfl | hne
      · rw [Function.update_self, hc]
        exact iff_of_false (Option.some_ne_none _) (Option.some_ne_none _)
      · rw [Function.update_of_ne hne]
    · simp only [dif_neg ended]
  · rfl

theorem foldl_endChild_there (ends : List (Int × WaitStatus × Rusage)) (children : Int → Option ChildState) (pid : Int) :
    ends.foldl endChild children pid = none ↔ children pid = none := by
  induction ends generalizing children with
  | nil => rfl
  | cons ending ends ih => exact (ih _).trans (endChild_there children ending pid)

/-- What an answer says. -/
def WaitAnswer.Means (waiter : Waiter) (pid : Int) (nohang : Bool) (x y : Parent) : WaitAnswer → Prop
  | .child status usage => Took waiter pid status usage x y
  | .nothing => Passed x y ∧ nohang = true ∧ y.children pid = some .running
  | .echild => Passed x y ∧ x.children pid = none
  | .eintr => Passed x y

theorem wait4_means (h : wait4 waiter pid nohang x = some (answer, y)) : answer.Means waiter pid nohang x y := by
  have hpass : Passed x { x with
      children := x.moments.head.ends.foldl endChild x.children
      moments := x.moments.tail } := ⟨rfl, foldl_endChild_there _ _, rfl, rfl⟩
  unfold wait4 at h
  simp only at h
  split at h
  · rename_i hnone
    cases h
    exact ⟨hpass, (hpass.there pid).1 hnone⟩
  · rename_i status usage ended hzombie
    cases h
    refine ⟨rfl, fun hc => ?_, Function.update_self .., fun pid' hne => ?_, rfl, rfl, ended⟩
    · exact absurd (hzombie.symm.trans ((hpass.there pid).2 hc)) (Option.some_ne_none _)
    · simp only
      rw [Function.update_of_ne hne]
      exact hpass.there pid'
  · rename_i hrunning
    split at h
    · cases h
      exact hpass
    split at h
    · rename_i hnohang
      cases h
      exact ⟨hpass, hnohang, hrunning⟩
    · cases h

theorem WaitAnswer.Means.after {z : Parent} (h : Passed x y) (hs : answer.Means waiter pid nohang y z) : answer.Means waiter pid nohang x z := by
  cases answer with
  | child status usage => exact h.took hs
  | nothing => exact ⟨h.trans hs.1, hs.2⟩
  | echild => exact ⟨h.trans hs.1, (h.there pid).1 hs.2⟩
  | eintr => exact h.trans hs

/-- The loop never answers that it was interrupted. -/
theorem executorWait4Retry_means : ∀ (fuel : Nat) (x : Parent), executorWait4Retry waiter pid nohang fuel x = some (answer, y) →
    answer.Means waiter pid nohang x y ∧ answer ≠ .eintr
  | 0, _, h => by cases h
  | fuel + 1, x, h => by
    unfold executorWait4Retry at h
    split at h
    · rename_i z hz
      obtain ⟨hs, hne⟩ := executorWait4Retry_means fuel z h
      exact ⟨hs.after (wait4_means hz), hne⟩
    · rename_i hother
      refine ⟨wait4_means h, ?_⟩
      rintro rfl
      exact hother y h

end Waits

/-! ## What the executor does -/

section Answers

variable {x y : Parent} {p : ProcessPtr} {fuel : Nat} {result : Int}

/-- The call took the end of the child of `p`, and `f` was made of its record. -/
def Collects (waiter : Waiter) (p : ProcessPtr) (status : WaitStatus) (usage : Rusage) (f : Process → Process) (x y : Parent) : Prop :=
  ∃ z, Took waiter (x.heap.read p).hostId status usage x z ∧ y = { z with heap := z.heap.modify p f }

/-- Nobody to wait for: the process was never spawned, or its child has been collected before. -/
def Childless (x : Parent) (p : ProcessPtr) : Prop :=
  (x.heap.read p).hostId = emblaInvalidHostPid ∨ x.children (x.heap.read p).hostId = none

/-- The record after the end was noted and the process is terminated. -/
def endedBy (status : WaitStatus) (r : Process) : Process := { Embla.WaitStatus.note status r with state := .terminated }

theorem executorApplyTermination_eq (r : Process) (status : WaitStatus) : executorApplyTermination r status =
    if processCanTransition r.state .terminated then (0, endedBy status r) else (-1, Embla.WaitStatus.note status r) := by
  unfold executorApplyTermination processTransition endedBy Embla.WaitStatus.note
  cases status <;> cases hc : processCanTransition r.state .terminated <;> simp [hc]

/-- The answers of `executor_poll`. -/
inductive PollAnswer (p : ProcessPtr) (x y : Parent) : Int → Prop
  | running (h : Passed x y) (hc : y.children (x.heap.read p).hostId = some .running) : PollAnswer p x y 0
  | childless (h : Passed x y) (hc : Childless x p) : PollAnswer p x y (-1)
  | ended (status : WaitStatus) (usage : Rusage) (hcan : processCanTransition (x.heap.read p).state .terminated = true)
      (h : Collects .poll p status usage (endedBy status) x y) : PollAnswer p x y 1
  | lost (status : WaitStatus) (usage : Rusage) (hcan : processCanTransition (x.heap.read p).state .terminated = false)
      (h : Collects .poll p status usage (Embla.WaitStatus.note status) x y) : PollAnswer p x y (-1)

/-- The answers of `executor_wait`, with what it stores in `*status`. -/
inductive WaitResult (p : ProcessPtr) (x y : Parent) : Int → Option WaitStatus → Prop
  | childless (h : Passed x y) (hc : Childless x p) : WaitResult p x y (-1) none
  | ended (status : WaitStatus) (usage : Rusage) (hcan : processCanTransition (x.heap.read p).state .terminated = true)
      (h : Collects .wait p status usage (fun r => executorApplyRusage x.platform (endedBy status r) usage) x y) :
      WaitResult p x y 0 (some status)
  | lost (status : WaitStatus) (usage : Rusage) (hcan : processCanTransition (x.heap.read p).state .terminated = false)
      (h : Collects .wait p status usage (Embla.WaitStatus.note status) x y) : WaitResult p x y (-1) none

/-- The answers of `executor_kill_and_reap`: the signal is refused, or there is no child, or its end is taken. -/
inductive KillResult (pid : Int) (x y : Parent) : Int → Prop
  | refused (h : Passed x y) (hc : x.children pid ≠ none) (hrefused : x.permits.head = false) : KillResult pid x y (-1)
  | childless (h : Passed x y) (hc : x.children pid = none) : KillResult pid x y (-1)
  | reaped (status : WaitStatus) (usage : Rusage) (h : Took .killAndReap pid status usage x y) : KillResult pid x y 0

/-- The answers of `executor_terminate`. -/
inductive TerminateAnswer (p : ProcessPtr) (x y : Parent) : Int → Prop
  | refused (h : Passed x y) (hc : ¬ Childless x p) (hrefused : x.permits.head = false) : TerminateAnswer p x y (-1)
  | childless (h : Passed x y) (hc : Childless x p) : TerminateAnswer p x y (-1)
  | reaped (status : WaitStatus) (usage : Rusage) (h : Collects .killAndReap p status usage id x y) : TerminateAnswer p x y 0

theorem Took.collects {waiter : Waiter} {status : WaitStatus} {usage : Rusage} (h : Took waiter (x.heap.read p).hostId status usage x y)
    {f : Process → Process} {record : Process} (hf : f (x.heap.read p) = record) :
    Collects waiter p status usage f x { y with heap := y.heap.modify p fun _ => record } := by
  have hsame : y.heap.modify p (fun _ => record) = y.heap.modify p f := by
    refine y.heap.modify_congr ?_
    rw [h.heap]
    exact hf.symm
  exact ⟨y, h, by rw [hsame]⟩

theorem executorPoll_answers (h : executorPoll p fuel x = some (result, y)) : PollAnswer p x y result := by
  unfold executorPoll executorWaitpidRetry at h
  split at h
  · rename_i hid
    cases h
    exact .childless (.refl _) (.inl hid)
  cases hw : executorWait4Retry .poll (x.heap.read p).hostId true fuel x with
  | none =>
    rw [hw] at h
    cases h
  | some answered =>
    obtain ⟨answer, z⟩ := answered
    obtain ⟨hs, hne⟩ := executorWait4Retry_means fuel x hw
    rw [hw] at h
    cases answer with
    | child status usage =>
      have ht : Took .poll (x.heap.read p).hostId status usage x z := hs
      have hrecord : z.heap.read p = x.heap.read p := by rw [ht.heap]
      simp only [not_not.2 ht.death, if_false, hrecord, executorApplyTermination_eq] at h
      cases hcan : processCanTransition (x.heap.read p).state .terminated with
      | true =>
        simp only [hcan, if_true, ne_eq, not_true_eq_false, if_false] at h
        cases h
        exact .ended status usage hcan (ht.collects rfl)
      | false =>
        simp only [hcan, Bool.false_eq_true, if_false] at h
        cases h
        exact .lost status usage hcan (ht.collects rfl)
    | nothing =>
      cases h
      exact .running hs.1 hs.2.2
    | echild =>
      cases h
      exact .childless hs.1 (.inr hs.2)
    | eintr => exact absurd rfl hne

theorem executorWait_answers {stored : Option WaitStatus} (h : executorWait p fuel x = some (result, stored, y)) :
    WaitResult p x y result stored := by
  unfold executorWait at h
  split at h
  · rename_i hid
    cases h
    exact .childless (.refl _) (.inl hid)
  cases hw : executorWait4Retry .wait (x.heap.read p).hostId false fuel x with
  | none =>
    rw [hw] at h
    cases h
  | some answered =>
    obtain ⟨answer, z⟩ := answered
    obtain ⟨hs, hne⟩ := executorWait4Retry_means fuel x hw
    rw [hw] at h
    cases answer with
    | child status usage =>
      have ht : Took .wait (x.heap.read p).hostId status usage x z := hs
      have hrecord : z.heap.read p = x.heap.read p := by rw [ht.heap]
      simp only [hrecord, executorApplyTermination_eq] at h
      cases hcan : processCanTransition (x.heap.read p).state .terminated with
      | true =>
        simp only [hcan, if_true, ne_eq, not_true_eq_false, if_false] at h
        cases h
        exact .ended status usage hcan (ht.collects (by rw [ht.platform]))
      | false =>
        simp only [hcan, Bool.false_eq_true, if_false] at h
        cases h
        exact .lost status usage hcan (ht.collects rfl)
    | nothing => exact absurd hs.2.1 Bool.noConfusion
    | echild =>
      cases h
      exact .childless hs.1 (.inr hs.2)
    | eintr => exact absurd rfl hne

theorem kill_passed (pid : Int) (x : Parent) : Passed x (kill pid x).2 := by
  unfold kill
  split
  · exact .refl x
  · exact ⟨rfl, fun _ => Iff.rfl, rfl, rfl⟩

/-- Only the signal to a child that is there is refused. -/
theorem kill_refused {pid : Int} (h : (kill pid x).1 = .error) : x.children pid ≠ none ∧ x.permits.head = false := by
  unfold kill at h
  cases hc : x.children pid with
  | none =>
    rw [hc] at h
    cases h
  | some child =>
    refine ⟨Option.some_ne_none child, ?_⟩
    by_contra hpermit
    have htrue : x.permits.head = true := by simpa using hpermit
    rw [hc, htrue] at h
    cases h

theorem executorKillAndReap_answers {pid : Int} (h : executorKillAndReap pid fuel x = some (result, y)) :
    KillResult pid x y result := by
  have hkill := kill_passed pid x
  unfold executorKillAndReap executorWaitpidRetry at h
  simp only at h
  split at h
  · rename_i herror
    cases h
    obtain ⟨hthere, hpermit⟩ := kill_refused herror
    exact .refused hkill hthere hpermit
  cases hw : executorWait4Retry .killAndReap pid false fuel (kill pid x).2 with
  | none =>
    rw [hw] at h
    cases h
  | some answered =>
    obtain ⟨answer, z⟩ := answered
    obtain ⟨hs, hne⟩ := executorWait4Retry_means fuel _ hw
    rw [hw] at h
    cases answer with
    | child status usage =>
      cases h
      exact .reaped status usage (hkill.took hs)
    | nothing => exact absurd hs.2.1 Bool.noConfusion
    | echild =>
      cases h
      exact .childless (hkill.trans hs.1) ((hkill.there pid).1 hs.2)
    | eintr => exact absurd rfl hne

/-- The records are not touched. -/
theorem KillResult.heap {pid : Int} (h : KillResult pid x y result) : y.heap = x.heap := by
  cases h with
  | refused hs => exact hs.heap
  | childless hs => exact hs.heap
  | reaped status usage ht => exact ht.heap

theorem executorTerminate_answers (h : executorTerminate p fuel x = some (result, y)) : TerminateAnswer p x y result := by
  unfold executorTerminate at h
  split at h
  · rename_i hid
    cases h
    exact .childless (.refl _) (.inl hid)
  · rename_i hid
    cases executorKillAndReap_answers h with
    | refused hs hc hrefused => exact .refused hs (fun hno => hno.elim hid hc) hrefused
    | childless hs hc => exact .childless hs (.inr hc)
    | reaped status usage ht =>
      refine .reaped status usage ⟨y, ht, ?_⟩
      rw [y.heap.modify_fixed rfl]

end Answers

/-! ## The executor of the runtime -/

section Runtime

variable {x y : Parent} {e : Embla} {p : ProcessPtr} {pid : Int} {fuel : Nat} {result : Int}

/-- The host answers a kill and the wait after it as `x` does when the call returns. -/
structure Foretells (host : Host) (x : Parent) (pid : Int) (fuel : Nat) : Prop where
  kill : host.kills.head = (kill pid x).1
  wait : ∀ answer z, executorWaitpidRetry .killAndReap pid false fuel (Collect.kill pid x).2 = some (answer, z) →
    (host.waitpids.head = true ↔ ∃ status usage, answer = .child status usage)

/-- One call of `waitpid` that succeeds or fails is all that is left of the loop. -/
theorem executorKillAndReap_runtime (h : executorKillAndReap pid fuel x = some (result, y))
    (hf : Foretells e.host x pid fuel) : (EmblaOs.executorKillAndReap pid e).1 = result := by
  unfold executorKillAndReap at h
  unfold EmblaOs.executorKillAndReap
  simp only [Host.kill, Host.waitpid, hf.kill] at h ⊢
  split at h
  · rename_i herror
    cases h
    rw [if_pos herror]
  · rename_i hsent
    rw [if_neg hsent]
    split at h
    · cases h
    · rename_i status usage z hwait
      cases h
      rw [if_pos ((hf.wait _ _ hwait).2 ⟨status, usage, rfl⟩), if_pos rfl]
    · rename_i answer z hother hwait
      cases h
      have hfails : ¬ e.host.waitpids.head = true := by
        intro hc
        obtain ⟨status, usage, rfl⟩ := (hf.wait _ _ hwait).1 hc
        exact hother status usage rfl
      rw [if_neg hfails]
      rfl

theorem executorTerminate_runtime (h : executorTerminate p fuel x = some (result, y))
    (hid : (e.process p).hostId = (x.heap.read p).hostId) (hf : Foretells e.host x (x.heap.read p).hostId fuel) :
    (EmblaOs.executorTerminate p e).1 = result := by
  unfold executorTerminate at h
  unfold EmblaOs.executorTerminate
  rw [hid]
  split at h
  · rename_i hinvalid
    cases h
    rw [if_pos hinvalid]
  · rename_i hvalid
    rw [if_neg hvalid]
    exact executorKillAndReap_runtime h hf

/-- On equal answers a spawn of the runtime returns the same, and the process gets the same pid. -/
theorem executorSpawn_runtime {fork : Option HostPid} {setpgid : SetpgidAnswer} {group : Int}
    (h : executorSpawn p fork setpgid fuel x = some (result, y)) (hfork : e.host.forks.head = fork)
    (hset : e.host.setpgids.head = setpgid) (hid : (e.process p).hostId = (x.heap.read p).hostId)
    (hf : ∀ child, fork = some child →
      Foretells e.host { x with children := Function.update x.children child.pid (some .running) } child.pid fuel) :
    (EmblaOs.executorSpawn p group e).1 = result ∧
      ((EmblaOs.executorSpawn p group e).2.process p).hostId = (y.heap.read p).hostId := by
  unfold executorSpawn at h
  unfold EmblaOs.executorSpawn Host.fork
  rw [hfork]
  cases fork with
  | none =>
    cases h
    exact ⟨rfl, hid⟩
  | some child =>
    simp only [Host.setpgid, hset] at h ⊢
    split at h
    · rename_i herror
      rw [if_pos herror]
      split at h
      · cases h
      · rename_i killed z hkill
        cases h
        have hheap := (executorKillAndReap_answers hkill).heap
        refine ⟨rfl, ?_⟩
        obtain ⟨host, hhost⟩ := executorKillAndReap_host child.pid { e with host := { e.host with
          forks := e.host.forks.tail, setpgids := e.host.setpgids.tail, trace := .forked child.pid group :: e.host.trace } }
        rw [hhost, hheap]
        exact hid
    · rename_i hok
      cases h
      rw [if_neg hok]
      refine ⟨rfl, ?_⟩
      rw [Embla.process_modifyProcess_self, Heap.read_modify_self]

end Runtime

/-! ## Runs -/

inductive ParentOp
  | spawn (process : ProcessPtr) (fork : Option HostPid) (setpgid : SetpgidAnswer) (fuel : Nat)
  /-- `process_transition` by whoever uses the executor -/
  | transition (process : ProcessPtr) (next : ProcessState)
  | poll (process : ProcessPtr) (fuel : Nat)
  | wait (process : ProcessPtr) (fuel : Nat)
  | terminate (process : ProcessPtr) (fuel : Nat)

def ParentOp.exec : ParentOp → Parent → Option Parent
  | .spawn process fork setpgid fuel, x => (executorSpawn process fork setpgid fuel x).map Prod.snd
  | .transition process next, x =>
    some { x with heap := x.heap.modify process fun r => (processTransition r next).2 }
  | .poll process fuel, x => (executorPoll process fuel x).map Prod.snd
  | .wait process fuel, x => (executorWait process fuel x).map fun answer => answer.2.2
  | .terminate process fuel, x => (executorTerminate process fuel x).map Prod.snd

/-- A process is spawned once, with a pid that has not been in use; only the executor ends a process. -/
def ParentOp.Proper (x : Parent) : ParentOp → Prop
  | .spawn process fork _ _ => (x.heap.read process).hostId = emblaInvalidHostPid ∧ ∀ pid, fork = some pid →
      x.children pid.pid = none ∧ (∀ t ∈ x.taken, t.pid ≠ pid.pid) ∧ ∀ q, (x.heap.read q).hostId ≠ pid.pid
  | .transition _ next => next ≠ .terminated
  | _ => True

/-- Records as `process_create` makes them, no child yet, and anything may happen. -/
structure Parent.Fresh (x : Parent) : Prop where
  records : ∀ p, ∃ id parentId groupId name, x.heap.read p = processCreate id parentId groupId name
  children : x.children = fun _ => none
  taken : x.taken = []

/-- The ends of children with the pid of `p`. -/
def Parent.ends (x : Parent) (p : ProcessPtr) : List Taken := x.taken.filter fun t => t.pid = (x.heap.read p).hostId

/-- The child is there, nobody has taken its end and the record shows nothing. -/
structure Held (x : Parent) (p : ProcessPtr) : Prop where
  there : x.children (x.heap.read p).hostId ≠ none
  untaken : x.ends p = []
  opened : (x.heap.read p).Open
  live : (x.heap.read p).state ≠ .terminated

/-- What the record of a process shows whose child ended so, by the call that took the end: nothing, if it
was killed and reaped; how it ended, if it was polled; and what it used as well, if it was waited for. A
process that could not end yet shows how its child ended in either of the last two cases, and lives. -/
inductive Shown (platform : Platform) (t : Taken) (r : Process) : Prop
  | reaped (hby : t.waiter = .killAndReap) (ho : r.Open) (hlive : r.state ≠ .terminated)
  | lost (hby : t.waiter ≠ .killAndReap) (hlive : r.state ≠ .terminated) (hending : r.ending = t.status.ending)
      (husage : r.usage = (-1, -1, -1))
  | polled (hby : t.waiter = .poll) (hdead : r.state = .terminated) (hending : r.ending = t.status.ending)
      (husage : r.usage = (-1, -1, -1))
  | waited (hby : t.waiter = .wait) (hdead : r.state = .terminated) (hending : r.ending = t.status.ending)
      (husage : r.usage = t.usage.measured platform)

/-- The end of the child was taken, once. -/
structure Settled (x : Parent) (p : ProcessPtr) (t : Taken) : Prop where
  gone : x.children (x.heap.read p).hostId = none
  once : x.ends p = [t]
  shown : Shown x.platform t (x.heap.read p)

/-- A process that was spawned has its child still, or its end was taken. -/
def Placed (x : Parent) (p : ProcessPtr) : Prop := Held x p ∨ ∃ t, Settled x p t

structure Account (x : Parent) : Prop where
  unspawned : ∀ p, (x.heap.read p).hostId = emblaInvalidHostPid →
    (x.heap.read p).Open ∧ (x.heap.read p).state ≠ .terminated
  pids : ∀ p q, (x.heap.read p).hostId ≠ emblaInvalidHostPid → (x.heap.read p).hostId = (x.heap.read q).hostId → p = q
  spawned : ∀ p, (x.heap.read p).hostId ≠ emblaInvalidHostPid → Placed x p

section Account

variable {x y : Parent} {waiter : Waiter} {p : ProcessPtr} {pid : Int} {status : WaitStatus} {usage : Rusage}

theorem Parent.Fresh.account (h : x.Fresh) : Account x := by
  have hrecord : ∀ p, (x.heap.read p).hostId = emblaInvalidHostPid ∧ (x.heap.read p).Open ∧
      (x.heap.read p).state ≠ .terminated := by
    intro p
    obtain ⟨id, parentId, groupId, name, hr⟩ := h.records p
    rw [hr]
    exact ⟨rfl, ⟨rfl, rfl⟩, fun hc => by cases hc⟩
  exact ⟨fun p _ => (hrecord p).2, fun p _ hp => absurd (hrecord p).1 hp, fun p hp => absurd (hrecord p).1 hp⟩

/-- Nothing that concerns the child of `p` has changed. -/
theorem Placed.congr (h : Placed x p) (hread : y.heap.read p = x.heap.read p)
    (hthere : y.children (x.heap.read p).hostId = none ↔ x.children (x.heap.read p).hostId = none)
    (hends : y.ends p = x.ends p) (hplatform : y.platform = x.platform) : Placed y p := by
  rcases h with hh | ⟨t, hset⟩
  · refine .inl ⟨?_, hends.trans hh.untaken, ?_, ?_⟩ <;> rw [hread]
    · exact fun hc => hh.there (hthere.1 hc)
    · exact hh.opened
    · exact hh.live
  · refine .inr ⟨t, ?_, hends.trans hset.once, ?_⟩ <;> rw [hread]
    · exact hthere.2 hset.gone
    · rw [hplatform]
      exact hset.shown

theorem Account.passed (h : Account x) (hs : Passed x y) : Account y := by
  obtain ⟨hplatform, hthere, hheap, htaken⟩ := hs
  refine ⟨?_, ?_, fun p hp => ?_⟩
  · rw [hheap]
    exact h.unspawned
  · rw [hheap]
    exact h.pids
  · rw [hheap] at hp
    refine (h.spawned p hp).congr (by rw [hheap]) (hthere _) ?_ hplatform
    unfold Parent.ends
    rw [hheap, htaken]

/-- The end of a child is not that of a process with another pid. -/
theorem Took.ends_other (ht : Took waiter pid status usage x y) (hread : y.heap.read p = x.heap.read p)
    (hne : (x.heap.read p).hostId ≠ pid) : y.ends p = x.ends p := by
  unfold Parent.ends
  rw [hread, ht.taken, List.filter_cons_of_neg (by simpa using hne.symm)]

/-- The end of a child that no process stands for. -/
theorem Account.stray (h : Account x) (ht : Took waiter pid status usage x y) (hno : ∀ q, (x.heap.read q).hostId ≠ pid) :
    Account y := by
  refine ⟨?_, ?_, fun q hq => ?_⟩
  · rw [ht.heap]
    exact h.unspawned
  · rw [ht.heap]
    exact h.pids
  · have hread : y.heap.read q = x.heap.read q := by rw [ht.heap]
    rw [hread] at hq
    exact (h.spawned q hq).congr hread (ht.there _ (hno q)) (ht.ends_other hread (hno q)) ht.platform

/-- The end of the child of `p`. -/
theorem Account.collects (h : Account x) {f : Process → Process} (hc : Collects waiter p status usage f x y)
    (hp : (x.heap.read p).hostId ≠ emblaInvalidHostPid) (hid : (f (x.heap.read p)).hostId = (x.heap.read p).hostId)
    (hshown : (x.heap.read p).Open → (x.heap.read p).state ≠ .terminated → status.Death →
      Shown x.platform ⟨(x.heap.read p).hostId, status, usage, waiter⟩ (f (x.heap.read p))) : Account y := by
  obtain ⟨z, ht, rfl⟩ := hc
  have hself : (z.heap.modify p f).read p = f (x.heap.read p) := by rw [Heap.read_modify_self, ht.heap]
  have hother : ∀ q, q ≠ p → (z.heap.modify p f).read q = x.heap.read q := by
    intro q hne
    rw [Heap.read_modify_of_ne _ _ hne, ht.heap]
  have hids : ∀ q, ((z.heap.modify p f).read q).hostId = (x.heap.read q).hostId := by
    intro q
    rcases eq_or_ne q p with rfl | hne
    · rw [hself, hid]
    · rw [hother q hne]
  refine ⟨fun q hq => ?_, fun q r hq hqr => ?_, fun q hq => ?_⟩
  · have hne : q ≠ p := by
      rintro rfl
      exact hp ((hids q).symm.trans hq)
    rw [hother q hne]
    exact h.unspawned q ((hids q).symm.trans hq)
  · simp only [hids] at hq hqr
    exact h.pids q r hq hqr
  · rw [hids] at hq
    rcases eq_or_ne q p with rfl | hne
    · rcases h.spawned q hp with hh | ⟨t, hset⟩
      · refine .inr ⟨⟨(x.heap.read q).hostId, status, usage, waiter⟩, ?_, ?_, ?_⟩
        · simp only [hids]
          exact ht.gone
        · have hnone : x.taken.filter (fun t => t.pid = (x.heap.read q).hostId) = [] := hh.untaken
          unfold Parent.ends
          simp only [hids]
          rw [ht.taken, List.filter_cons_of_pos (by simp), hnone]
        · simp only [hself, ht.platform]
          exact hshown hh.opened hh.live ht.death
      · exact absurd hset.gone ht.was
    · have hpid : (x.heap.read q).hostId ≠ (x.heap.read p).hostId := fun hc => hne (h.pids q p hq hc)
      refine (h.spawned q hq).congr (hother q hne) (ht.there _ hpid) ?_ ht.platform
      have hends := ht.ends_other (p := q) (by rw [ht.heap]) hpid
      unfold Parent.ends at hends ⊢
      rw [hids, ← hends, ht.heap]

theorem note_shown {r : Process} (ho : r.Open) (hd : status.Death) :
    (Embla.WaitStatus.note status r).ending = status.ending ∧ (Embla.WaitStatus.note status r).usage = (-1, -1, -1) :=
  ⟨Embla.Process.Open.noted ho hd rfl rfl, (Embla.note_usage status r).trans ho.2⟩

/-- What `executor_poll` and `executor_wait` make of a record that showed nothing. -/
theorem shown_lost {platform : Platform} {r : Process} (hby : waiter ≠ .killAndReap) (ho : r.Open)
    (hlive : r.state ≠ .terminated) (hd : status.Death) : Shown platform ⟨r.hostId, status, usage, waiter⟩ (Embla.WaitStatus.note status r) := by
  obtain ⟨hending, husage⟩ := note_shown ho hd
  refine .lost hby ?_ hending husage
  rw [(Embla.WaitStatus.note_keeps status r).2.2.2.1]
  exact hlive

theorem shown_polled {platform : Platform} {r : Process} (ho : r.Open) (hd : status.Death) :
    Shown platform ⟨r.hostId, status, usage, .poll⟩ (endedBy status r) := by
  obtain ⟨hending, husage⟩ := note_shown ho hd
  exact .polled rfl rfl hending husage

theorem shown_waited {platform : Platform} {r : Process} (ho : r.Open) (hd : status.Death) :
    Shown platform ⟨r.hostId, status, usage, .wait⟩ (executorApplyRusage platform (endedBy status r) usage) := by
  obtain ⟨hending, -⟩ := note_shown ho hd
  exact .waited rfl rfl hending rfl

/-! ## Every operation -/

theorem hostPid_valid (pid : HostPid) : pid.pid ≠ emblaInvalidHostPid := by
  have := pid.pos
  unfold emblaInvalidHostPid
  omega

/-- A child whose pid no process has yet. -/
theorem Account.forked (h : Account x) {pid : Int} (hno : ∀ q, (x.heap.read q).hostId ≠ pid) (child : ChildState) :
    Account { x with children := Function.update x.children pid (some child) } := by
  refine ⟨h.unspawned, h.pids, fun q hq => (h.spawned q hq).congr rfl ?_ rfl rfl⟩
  simp only
  rw [Function.update_of_ne (hno q)]

/-- The process gets the pid of its child. -/
theorem Account.owns (h : Account x) {pid : HostPid} (hfresh : (x.heap.read p).hostId = emblaInvalidHostPid)
    (hthere : x.children pid.pid ≠ none) (huntaken : ∀ t ∈ x.taken, t.pid ≠ pid.pid)
    (hno : ∀ q, (x.heap.read q).hostId ≠ pid.pid) :
    Account { x with heap := x.heap.modify p fun r => { r with hostId := pid.pid } } := by
  have hself : ((x.heap.modify p fun r => { r with hostId := pid.pid }).read p).hostId = pid.pid := by
    rw [Heap.read_modify_self]
  have hother : ∀ q, q ≠ p → (x.heap.modify p fun r => { r with hostId := pid.pid }).read q = x.heap.read q :=
    fun q hne => Heap.read_modify_of_ne _ _ hne
  refine ⟨fun q hq => ?_, fun q r hq hqr => ?_, fun q hq => ?_⟩
  · have hne : q ≠ p := by
      rintro rfl
      exact hostPid_valid pid (hself.symm.trans hq)
    rw [hother q hne] at hq ⊢
    exact h.unspawned q hq
  · rcases eq_or_ne q p with hqp | hqp <;> rcases eq_or_ne r p with hrp | hrp
    · rw [hqp, hrp]
    · simp only [hqp, hself, hother r hrp] at hqr
      exact absurd hqr.symm (hno r)
    · simp only [hrp, hself, hother q hqp] at hqr
      exact absurd hqr (hno q)
    · simp only [hother q hqp, hother r hrp] at hq hqr
      exact h.pids q r hq hqr
  · rcases eq_or_ne q p with rfl | hne
    · obtain ⟨ho, hlive⟩ := h.unspawned q hfresh
      refine .inl ⟨?_, ?_, ?_, ?_⟩
      · simp only [hself]
        exact hthere
      · unfold Parent.ends
        simp only [hself]
        rw [List.filter_eq_nil_iff]
        intro t ht
        rw [decide_eq_true_eq]
        exact huntaken t ht
      · simp only [Heap.read_modify_self]
        exact ho
      · simp only [Heap.read_modify_self]
        exact hlive
    · simp only [hother q hne] at hq
      refine (h.spawned q hq).congr (hother q hne) Iff.rfl ?_ rfl
      unfold Parent.ends
      rw [hother q hne]

theorem Account.spawn (h : Account x) {fork : Option HostPid} {setpgid : SetpgidAnswer} {fuel : Nat} {result : Int}
    (hop : ParentOp.Proper x (.spawn p fork setpgid fuel)) (hx : executorSpawn p fork setpgid fuel x = some (result, y)) :
    Account y := by
  obtain ⟨hfresh, hpid⟩ := hop
  unfold executorSpawn at hx
  cases fork with
  | none =>
    cases hx
    exact h
  | some pid =>
    obtain ⟨-, huntaken, hno⟩ := hpid pid rfl
    have hforked := h.forked hno .running
    simp only at hx
    split at hx
    · -- the child is killed and waited for
      split at hx
      · cases hx
      · rename_i killed z hkill
        cases hx
        cases executorKillAndReap_answers hkill with
        | refused hs => exact hforked.passed hs
        | childless hs => exact hforked.passed hs
        | reaped status usage ht => exact hforked.stray ht hno
    · cases hx
      refine hforked.owns hfresh ?_ huntaken hno
      simp only
      rw [Function.update_self]
      exact Option.some_ne_none _

/-- A change of state other than an end is not in the account. -/
theorem Account.transition (h : Account x) {next : ProcessState} (hnext : next ≠ .terminated) :
    Account { x with heap := x.heap.modify p fun r => (processTransition r next).2 } := by
  -- the dead stay dead and nobody else dies
  have hsame : ∀ q, ((x.heap.modify p fun r => (processTransition r next).2).read q).hostId = (x.heap.read q).hostId ∧
      ((x.heap.modify p fun r => (processTransition r next).2).read q).ending = (x.heap.read q).ending ∧
      ((x.heap.modify p fun r => (processTransition r next).2).read q).usage = (x.heap.read q).usage ∧
      (((x.heap.modify p fun r => (processTransition r next).2).read q).state = .terminated ↔
        (x.heap.read q).state = .terminated) := by
    intro q
    rcases eq_or_ne q p with rfl | hne
    · rw [Heap.read_modify_self, processTransition_eq]
      refine ⟨rfl, rfl, rfl, ?_⟩
      simp only
      split
      · rename_i hcan
        refine iff_of_false hnext fun hc => ?_
        rw [hc] at hcan
        cases hcan
      · rfl
    · rw [Heap.read_modify_of_ne _ _ hne]
      exact ⟨rfl, rfl, rfl, Iff.rfl⟩
  refine ⟨fun q hq => ?_, fun q r hq hqr => ?_, fun q hq => ?_⟩
  · obtain ⟨hid, hending, husage, hdead⟩ := hsame q
    obtain ⟨⟨ho, hu⟩, hlive⟩ := h.unspawned q (hid.symm.trans hq)
    exact ⟨⟨hending.trans ho, husage.trans hu⟩, fun hc => hlive (hdead.1 hc)⟩
  · simp only [(hsame _).1] at hq hqr
    exact h.pids q r hq hqr
  · obtain ⟨hid, hending, husage, hdead⟩ := hsame q
    have hends : Parent.ends { x with heap := x.heap.modify p fun r => (processTransition r next).2 } q = x.ends q := by
      unfold Parent.ends
      rw [hid]
    rw [hid] at hq
    rcases h.spawned q hq with hh | ⟨t, hset⟩
    · refine .inl ⟨?_, hends.trans hh.untaken, ?_, fun hc => hh.live (hdead.1 hc)⟩
      · simp only [hid]
        exact hh.there
      · exact ⟨hending.trans hh.opened.1, husage.trans hh.opened.2⟩
    · refine .inr ⟨t, ?_, hends.trans hset.once, ?_⟩
      · simp only [hid]
        exact hset.gone
      · cases hset.shown with
        | reaped hby ho hlive =>
          exact .reaped hby ⟨hending.trans ho.1, husage.trans ho.2⟩ fun hc => hlive (hdead.1 hc)
        | lost hby hlive he hu => exact .lost hby (fun hc => hlive (hdead.1 hc)) (hending.trans he) (husage.trans hu)
        | polled hby hd he hu => exact .polled hby (hdead.2 hd) (hending.trans he) (husage.trans hu)
        | waited hby hd he hu => exact .waited hby (hdead.2 hd) (hending.trans he) (husage.trans hu)

end Account

theorem ParentOp.account {x y : Parent} {op : ParentOp} (h : Account x) (hop : op.Proper x) (hx : op.exec x = some y) :
    Account y := by
  have hkeeps : ∀ (status : WaitStatus) (r : Process), (Embla.WaitStatus.note status r).hostId = r.hostId :=
    fun status r => (Embla.WaitStatus.note_keeps status r).2.2.1
  cases op with
  | spawn p fork setpgid fuel =>
    obtain ⟨⟨result, y⟩, hspawn, rfl⟩ := Option.map_eq_some_iff.1 hx
    exact h.spawn hop hspawn
  | transition p next =>
    cases hx
    exact h.transition hop
  | poll p fuel =>
    obtain ⟨⟨result, y⟩, hpoll, rfl⟩ := Option.map_eq_some_iff.1 hx
    by_cases hid : (x.heap.read p).hostId = emblaInvalidHostPid
    · unfold executorPoll at hpoll
      rw [if_pos hid] at hpoll
      cases hpoll
      exact h
    cases executorPoll_answers hpoll with
    | running hs => exact h.passed hs
    | childless hs => exact h.passed hs
    | ended status usage hcan hc => exact h.collects hc hid (hkeeps status _) fun ho _ hd => shown_polled ho hd
    | lost status usage hcan hc => exact h.collects hc hid (hkeeps status _) fun ho hlive hd => shown_lost (by decide) ho hlive hd
  | wait p fuel =>
    obtain ⟨⟨result, stored, y⟩, hwait, rfl⟩ := Option.map_eq_some_iff.1 hx
    by_cases hid : (x.heap.read p).hostId = emblaInvalidHostPid
    · unfold executorWait at hwait
      rw [if_pos hid] at hwait
      cases hwait
      exact h
    cases executorWait_answers hwait with
    | childless hs => exact h.passed hs
    | ended status usage hcan hc => exact h.collects hc hid (hkeeps status _) fun ho _ hd => shown_waited ho hd
    | lost status usage hcan hc => exact h.collects hc hid (hkeeps status _) fun ho hlive hd => shown_lost (by decide) ho hlive hd
  | terminate p fuel =>
    obtain ⟨⟨result, y⟩, hterminate, rfl⟩ := Option.map_eq_some_iff.1 hx
    by_cases hid : (x.heap.read p).hostId = emblaInvalidHostPid
    · unfold executorTerminate at hterminate
      rw [if_pos hid] at hterminate
      cases hterminate
      exact h
    cases executorTerminate_answers hterminate with
    | refused hs => exact h.passed hs
    | childless hs => exact h.passed hs
    | reaped status usage hc => exact h.collects hc hid rfl fun ho hlive _ => .reaped rfl ho hlive

end EmblaOs.Collect
