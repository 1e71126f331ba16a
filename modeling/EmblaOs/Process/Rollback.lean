/-
A spawn that fails leaves nothing behind: neither in the tables, the groups and the scheduler nor on
the host, where a child that was forked has been killed and collected.
-/
import EmblaOs.Process.Membership

namespace EmblaOs

open Lib

/-- The calls of a failed spawn, latest first: none that matter, or a fork taken back. -/
def Host.TakenBack (h h' : Host) : Prop :=
  h'.trace = h.trace ∨
    ∃ pid group, h'.trace = .collected pid :: .killed pid .sigkill .ok :: .forked pid group :: h.trace

/-- The next SIGKILL and the next blocking wait succeed. -/
def Host.CanTakeBack (h : Host) : Prop := h.kills.head = .ok ∧ h.waitpids.head = true

/-- The calls of `executor_kill_and_reap` on `pid`, latest first: after a kill that failed it does not wait. -/
def Host.takingBack (pid : Int) (h : Host) : List HostCall :=
  if h.kills.head = .error then [.killed pid .sigkill .error]
  else if h.waitpids.head then [.collected pid, .killed pid .sigkill h.kills.head]
  else [.killed pid .sigkill h.kills.head]

/-- The calls of a failed spawn on any host: none that matter, or a fork and the attempt to take it back. -/
def Host.Attempted (h h' : Host) : Prop :=
  h'.trace = h.trace ∨ ∃ child group, h.forks.head = some child ∧
    h'.trace = h.takingBack child.pid ++ .forked child.pid group :: h.trace

theorem Host.Attempted.takenBack {h h' : Host} (ha : h.Attempted h') (hh : h.CanTakeBack) : h.TakenBack h' := by
  rcases ha with hsame | ⟨child, group, -, hx⟩
  · exact .inl hsame
  · obtain ⟨hk, hw⟩ := hh
    refine .inr ⟨child.pid, group, ?_⟩
    simpa [takingBack, hk, hw] using hx

variable {e : Embla} {g : GroupPtr} {p : ProcessPtr}

theorem executorKillAndReap_trace (pid : Int) (e : Embla) :
    (executorKillAndReap pid e).2.host.trace = e.host.takingBack pid ++ e.host.trace := by
  unfold executorKillAndReap Host.takingBack Host.waitpid Host.kill
  cases hk : e.host.kills.head <;> cases hw : e.host.waitpids.head <;> simp [hw]

theorem emblaSpawnRollback_trace (hid : (e.process p).hostId ≠ emblaInvalidHostPid) (g : GroupPtr) (id : Nat) :
    (emblaSpawnRollback g p id true e).host.trace = e.host.takingBack (e.process p).hostId ++ e.host.trace := by
  rw [← executorKillAndReap_trace]
  unfold emblaSpawnRollback executorTerminate
  rw [if_pos rfl, if_neg hid]
  rfl

/-- Once the child is there, a failure kills it. -/
theorem emblaSpawnReady_trace (hid : (e.process p).hostId ≠ emblaInvalidHostPid) {id : Nat}
    (hnone : (emblaSpawnReady g p id e).1 = none) :
    (emblaSpawnReady g p id e).2.host.trace = e.host.takingBack (e.process p).hostId ++ e.host.trace := by
  have hready : ((e.modifyProcess p fun _ => (processTransition (e.process p) .ready).2).process p).hostId =
      (e.process p).hostId := by
    rw [Embla.process_modifyProcess_self, processTransition_eq]
  unfold emblaSpawnReady at hnone ⊢
  simp only at hnone ⊢
  split
  · exact emblaSpawnRollback_trace hid g id
  · rename_i hcan
    rw [if_neg hcan] at hnone
    split
    · have hback := emblaSpawnRollback_trace (e := e.modifyProcess p fun _ => (processTransition (e.process p) .ready).2)
        (by rw [hready]; exact hid) g id
      rw [hready] at hback
      exact hback
    · rename_i hadd
      rw [if_neg hadd] at hnone
      cases hnone

theorem executorSpawn_attempted (hroom : ¬ e.host.ForkRoom) (p : ProcessPtr) (target : Int) :
    e.host.Attempted (executorSpawn p target e).2.host := by
  unfold executorSpawn Host.fork
  cases hf : e.host.forks.head with
  | none => exact .inl rfl
  | some pid =>
    have hs : e.host.setpgids.head = .error := by
      by_contra hne
      exact hroom ⟨by simp [hf], hne⟩
    simp only [Host.setpgid, hs, if_true]
    refine .inr ⟨pid, target, hf, ?_⟩
    exact executorKillAndReap_trace pid.pid { e with host := { e.host with
      forks := e.host.forks.tail
      setpgids := e.host.setpgids.tail
      trace := .forked pid.pid target :: e.host.trace } }

theorem emblaSpawnHost_attempted {id : Nat} (hnone : (emblaSpawnHost g p id e).1 = none) :
    e.host.Attempted (emblaSpawnHost g p id e).2.host := by
  by_cases hroom : e.host.ForkRoom
  · -- the fork went through, so the second half failed
    obtain ⟨pid, hf⟩ := Option.isSome_iff_exists.1 hroom.1
    have hspawn := executorSpawn_ok hf hroom.2 p (e.group g).hostId
    have hid : ((executorSpawn p (e.group g).hostId e).2.process p).hostId = pid.pid := by
      rw [hspawn]
      exact congrArg Process.hostId (e.process_modifyProcess_self p fun r => { r with hostId := pid.pid })
    have hpos : pid.pid ≠ emblaInvalidHostPid := by
      have := pid.pos
      unfold emblaInvalidHostPid
      omega
    have hcalls : (executorSpawn p (e.group g).hostId e).2.host.takingBack pid.pid ++
          (executorSpawn p (e.group g).hostId e).2.host.trace =
        e.host.takingBack pid.pid ++ .forked pid.pid (e.group g).hostId :: e.host.trace := by
      rw [hspawn]
      rfl
    have hret : (executorSpawn p (e.group g).hostId e).1 = 0 := by rw [hspawn]
    refine .inr ⟨pid, (e.group g).hostId, hf, ?_⟩
    unfold emblaSpawnHost at hnone ⊢
    simp only [hret, ne_eq, not_true_eq_false, if_false] at hnone ⊢
    rw [← hcalls]
    split
    · rename_i hinv
      rw [if_pos hinv] at hnone
      have hready := emblaSpawnReady_trace (e := (executorSpawn p (e.group g).hostId e).2.modifyGroup g _)
        (by rw [← hid] at hpos; exact hpos) hnone
      rw [show ((Embla.modifyGroup (executorSpawn p (e.group g).hostId e).2 g _).process p).hostId = pid.pid from hid]
        at hready
      exact hready
    · rename_i hinv
      rw [if_neg hinv] at hnone
      have hready := emblaSpawnReady_trace (by rw [hid]; exact hpos) hnone
      rw [hid] at hready
      exact hready
  · have hback := executorSpawn_attempted hroom p (e.group g).hostId
    obtain ⟨host, hx⟩ := executorSpawn_failed hroom p (e.group g).hostId
    rw [hx] at hback
    unfold emblaSpawnHost
    simp only [hx]
    exact hback

theorem emblaSpawnMember_attempted (hnone : (emblaSpawnMember g p e).1 = none) :
    e.host.Attempted (emblaSpawnMember g p e).2.host := by
  unfold emblaSpawnMember at hnone ⊢
  simp only at hnone ⊢
  split
  · exact .inl rfl
  · rename_i hadd
    rw [if_neg hadd] at hnone
    exact emblaSpawnHost_attempted (e := e.modifyGroup g _) hnone

theorem emblaSpawnInternal_attempted {parentId groupId : Nat} {name : String}
    (hnone : (emblaSpawnInternal parentId groupId name e).1 = none) :
    e.host.Attempted (emblaSpawnInternal parentId groupId name e).2.host := by
  unfold emblaSpawnInternal at hnone ⊢
  cases hg : processGroupManagerGet e.groupHeap e.processGroupManager groupId with
  | none => exact .inl rfl
  | some g =>
    rw [hg] at hnone
    simp only at hnone ⊢
    split
    · exact .inl rfl
    · rename_i hcap
      rw [if_neg hcap] at hnone
      by_cases hroom : e.processManager.Room e.host
      · rw [createProcess_ok hroom] at hnone ⊢
        exact emblaSpawnMember_attempted hnone
      · obtain ⟨nextPid, allocs, hx, -⟩ := createProcess_none hroom parentId groupId name e.processHeap
        rw [hx]
        exact .inl rfl

theorem emblaSpawn_attempted {name : String} (hnone : (emblaSpawn name e).1 = none) :
    e.host.Attempted (emblaSpawn name e).2.host := by
  by_cases hroom : e.processGroupManager.Room e.host
  · rw [Embla.emblaSpawn_eq hroom] at hnone ⊢
    rcases hx : emblaSpawnInternal emblaRootPid e.processGroupManager.nextId name e.withNewGroup with ⟨_ | q, e'⟩
    · have hinternal := emblaSpawnInternal_attempted (e := e.withNewGroup) (by rw [hx])
      rw [hx] at hinternal
      exact hinternal
    · rw [hx] at hnone
      cases hnone
  · obtain ⟨nextId, allocs, hx, -⟩ := createGroup_none hroom e.groupHeap
    unfold emblaSpawn
    rw [hx]
    exact .inl rfl

theorem emblaSpawnChild_attempted {parent : ProcessPtr} {name : String}
    (hnone : (emblaSpawnChild parent name e).1 = none) : e.host.Attempted (emblaSpawnChild parent name e).2.host := by
  unfold emblaSpawnChild at hnone ⊢
  simp only at hnone ⊢
  split
  · exact .inl rfl
  · rename_i hvalid
    rw [if_neg hvalid] at hnone
    exact emblaSpawnInternal_attempted hnone

namespace Embla

/-- The tables, every record and group they name, the scheduler and the state are as before, and so
is the host but for a child that was forked, killed and collected. -/
structure NoTrace (e e' : Embla) : Prop where
  processes : e'.processManager.processes = e.processManager.processes
  records : ∀ p, e.Tracked p → e'.process p = e.process p
  groups : e'.processGroupManager.groups = e.processGroupManager.groups
  groupRecords : ∀ g ∈ e.processGroupManager.groups, e'.group g = e.group g
  scheduler : e'.scheduler = e.scheduler
  state : e'.state = e.state
  host : e.host.TakenBack e'.host

variable {e' : Embla}

theorem Sound.spawn_noTrace (h : e.Sound) (hh : e.host.CanTakeBack) {name : String}
    (hx : emblaSpawn name e = (none, e')) : NoTrace e e' := by
  have hback := (emblaSpawn_attempted (by rw [hx])).takenBack hh
  by_cases hs : e.Spawnable
  · obtain ⟨e₁, hy, -⟩ := emblaSpawn_launched h.inv hs name
    rw [hx] at hy
    cases hy
  · obtain ⟨e₁, hy, htables, hrecords, hsched, hstate, hgroups⟩ := emblaSpawn_failed h.inv hs name
    rw [hx] at hy hback
    cases hy
    exact ⟨htables.processes, fun p hp => hrecords p (h.inv.alloc hp), htables.groups, hgroups, hsched, hstate, hback⟩

theorem Sound.spawnChild_noTrace (h : e.Sound) (hh : e.host.CanTakeBack) {parent : ProcessPtr} (hp : e.Tracked parent)
    {name : String} (hx : emblaSpawnChild parent name e = (none, e')) : NoTrace e e' := by
  have hback := (emblaSpawnChild_attempted (by rw [hx])).takenBack hh
  obtain ⟨g, hg, -, ⟨-, e₁, hy, -⟩ | ⟨-, e₁, hy, hu⟩⟩ := emblaSpawnChild_cases h.inv hp name
  · rw [hx] at hy
    cases hy
  · rw [hx] at hy hback
    cases hy
    exact ⟨hu.processes, fun p hp => hu.others p (h.inv.alloc hp), by rw [hu.groupManager],
      fun g' _ => unspawned_group h hg hu g', hu.scheduler, hu.state, hback⟩

/-- In every state of a run, if the host can kill and collect the child it forked, a spawn that
returns NULL leaves no trace. -/
theorem failed_spawn_leaves_no_trace {host : Host} (h : EmblaRuns (emblaCreate host) e)
    (hkill : e.host.kills.head = .ok) (hwait : e.host.waitpids.head = true) :
    (∀ name e', emblaSpawn name e = (none, e') → NoTrace e e') ∧
    ∀ parent name e', e.Tracked parent → emblaSpawnChild parent name e = (none, e') → NoTrace e e' := by
  have hs := sound_of_runs h
  constructor
  · intro name e' hx
    exact hs.spawn_noTrace ⟨hkill, hwait⟩ hx
  · intro parent name e' hp hx
    exact hs.spawnChild_noTrace ⟨hkill, hwait⟩ hp hx

end Embla

/-- A host that lets the first child into its group and no other. -/
def oneGroupEntry : Host :=
  { Host.generous [] [] 0 with setpgids := fun n => if n = 0 then .ok else .error }

/-- The second spawn forks, kills and collects, and nothing else is seen of it. -/
theorem failed_spawn_leaves_no_trace_of_second :
    Embla.NoTrace (emblaSpawn "first" (emblaCreate oneGroupEntry)).2
      (emblaSpawn "second" (emblaSpawn "first" (emblaCreate oneGroupEntry)).2).2 := by
  have hrun : EmblaRuns (emblaCreate oneGroupEntry) (emblaSpawn "first" (emblaCreate oneGroupEntry)).2 :=
    (Runs.refl _).next (.runtime (.spawn "first")) trivial rfl
  have hnone : (emblaSpawn "second" (emblaSpawn "first" (emblaCreate oneGroupEntry)).2).1 = none := by decide +kernel
  exact (Embla.failed_spawn_leaves_no_trace hrun rfl rfl).1 "second" _ (Prod.ext hnone rfl)

end EmblaOs
