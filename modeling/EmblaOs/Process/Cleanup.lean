/-
The end of `embla_run`. The final reaping looks only for dead children of the root. It is enough,
because by then every process is one: each handled death gives the children of the dead to the root,
whatever the order of the deaths, and nothing is spawned while the loop runs. However a run ends, it
leaves the runtime stopped.
-/
import EmblaOs.Process.Parents
import EmblaOs.Process.Scheduling

namespace EmblaOs

open Lib

namespace Embla

variable {e e' : Embla} {p : ProcessPtr}

/-! ## One round and the loop -/

/-- Sound, the live processes in the scheduler, parents alive, and nobody going to call
`embla_stop`. -/
structure Tended (e : Embla) : Prop where
  sound : e.Sound
  placed : ∃ q, e.Placed q
  rooted : e.Rooted
  stops : ∀ n, e.host.stops.get n = false

theorem Tended.withState (h : e.Tended) (state : EmblaState) : Tended { e with state := state } := by
  obtain ⟨q, hq⟩ := h.placed
  exact ⟨h.sound.step (.state e state), ⟨q, hq.congr rfl (fun _ => Iff.rfl) fun _ _ => Iff.rfl⟩, h.rooted, h.stops⟩

theorem Tended.onlyHost (h : e.Tended) (ho : e.OnlyHost e') (hstops : ∀ n, e'.host.stops.get n = false) : e'.Tended := by
  have hsound := h.sound.onlyHost ho
  obtain ⟨host, rfl⟩ := ho
  obtain ⟨q, hq⟩ := h.placed
  exact ⟨hsound, ⟨q, hq.congr rfl (fun _ => Iff.rfl) fun _ _ => Iff.rfl⟩, h.rooted, hstops⟩

theorem Tended.dispatch (h : e.Tended) : (emblaDispatch e).2.Tended := by
  obtain ⟨q, hq⟩ := h.placed
  exact ⟨h.sound.step (.dispatch e), hq.dispatch, h.rooted.dispatch h.sound.inv, h.stops⟩

theorem Tended.polled (h : e.Tended) : e.polled.Tended := by
  refine h.onlyHost ⟨_, rfl⟩ fun n => ?_
  unfold Embla.polled Host.wait4
  cases e.host.wait4s.head <;> exact h.stops n

theorem Tended.childEvent (h : e.Tended) {event : ChildEvent} (hret : (emblaHandleChildEvent event e).1 = 0) :
    (emblaHandleChildEvent event e).2.Tended := by
  obtain ⟨q, hq⟩ := h.placed
  refine ⟨h.sound.handled (emblaHandleChildEvent_handled event e), (hq.childEvent h.sound.inv event (.inr hret)).1,
    h.rooted.childEvent hret, fun n => ?_⟩
  rcases emblaHandleChildEvent_host event e with hhost | hhost <;> rw [hhost]
  · exact h.stops n
  · exact h.stops n

/-- No live process is left. -/
def Quiet (e : Embla) : Prop := processManagerLiveCount e.processHeap e.processManager = 0

/-- Where the loop stands at its condition: still running, or told to stop because all is quiet. -/
def Winding (e : Embla) : Prop := e.state = .running ∨ (e.state = .stopping ∧ e.Quiet)

theorem Tended.round (h : e.Tended) (hround : Round e false e') : e'.Tended ∧ e'.state = e.state := by
  cases hround with
  | quiet => exact ⟨h.polled, rfl⟩
  | handled event hw hret => exact ⟨h.polled.childEvent hret, (emblaHandleChildEvent_handled event e.polled).state⟩
  | dispatched event hw hret =>
    exact ⟨(h.polled.childEvent hret).dispatch, (emblaHandleChildEvent_handled event e.polled).state⟩

/-- A round gives up with -1 or leads back to the condition. -/
theorem Tended.body (h : e.Tended) (hs : e.state = .running) :
    (∃ e', emblaRunBody e = (some (-1), e')) ∨ ∃ e', emblaRunBody e = (none, e') ∧ e'.Tended ∧ e'.Winding := by
  obtain ⟨failed, e₁, hround, hx⟩ := emblaRunBody_round e
  rw [hx]
  cases failed with
  | true => exact .inl ⟨_, rfl⟩
  | false =>
    obtain ⟨htended, hstate⟩ := h.round hround
    refine .inr ⟨_, rfl, ?_⟩
    unfold roundEnd
    split
    · rename_i hquiet
      unfold emblaStop
      rw [if_neg (not_not.2 (hstate.trans hs))]
      exact ⟨htended.withState .stopping, .inr ⟨rfl, hquiet⟩⟩
    · exact ⟨htended, .inl (hstate.trans hs)⟩

theorem Tended.atCondition (h : e.Tended) (hw : e.Winding) : e.atCondition.Tended ∧ e.atCondition.Winding := by
  have hno : e.host.stopRequest.1 = false := h.stops 0
  unfold Embla.atCondition
  simp only [hno, Bool.false_eq_true, if_false]
  exact ⟨h.onlyHost ⟨_, rfl⟩ fun n => h.stops (n + 1), hw⟩

/-- A loop that returns 0 went through the shutdown, with all processes dead. -/
theorem Tended.loop : ∀ (fuel : Nat) (e : Embla), e.Tended → e.Winding → ∀ e', emblaRunLoop fuel e = some (0, e') →
    ∃ e₁, e₁.Tended ∧ e₁.state = .stopping ∧ e₁.Quiet ∧ emblaShutdown e₁ = (0, e')
  | 0, _, _, _, _, hx => by cases hx
  | fuel + 1, e, h, hw, e', hx => by
    obtain ⟨htended, hwinding⟩ := h.atCondition hw
    rw [emblaRunLoop_succ] at hx
    rcases hwinding with hrun | ⟨hstop, hquiet⟩
    · rw [if_pos hrun] at hx
      rcases htended.body hrun with ⟨e₁, hb⟩ | ⟨e₁, hb, h₁, hw₁⟩ <;> rw [hb] at hx
      · cases hx
      · exact Tended.loop fuel e₁ h₁ hw₁ e' hx
    · have hrun : ¬ e.atCondition.state = .running := by
        rw [hstop]
        exact fun hc => by cases hc
      rw [if_neg hrun, if_pos hstop] at hx
      by_cases hshut : (emblaShutdown e.atCondition).1 = 0
      · rw [if_neg (not_not.2 hshut)] at hx
        cases hx
        exact ⟨e.atCondition, htended, hstop, hquiet, Prod.ext hshut rfl⟩
      · rw [if_pos hshut] at hx
        cases hx

/-! ## The final reaping -/

/-- The loop over the dead children of the root never fails, and empties a table that holds nothing
else. -/
theorem Inv.reapRoot : ∀ (rounds : Nat) (e : Embla), e.Inv →
    (reapRootLoop rounds e).1 = 0 ∧ (reapRootLoop rounds e).2.scheduler = e.scheduler ∧
    ((∀ p, e.Tracked p → (e.process p).state = .terminated ∧ (e.process p).parentId = emblaRootPid) →
      e.processManager.processes.length < rounds → (reapRootLoop rounds e).2.processManager.processes = [])
  | 0, e, _ => ⟨rfl, rfl, fun _ hlt => absurd hlt (Nat.not_lt_zero _)⟩
  | rounds + 1, e, h => by
    unfold reapRootLoop
    rcases emblaReapChild_target h emblaRootPid with ⟨hnone, -⟩ | ⟨p, e₁, hsome, -, -, hx, hr, hinv⟩
    · rw [hnone]
      refine ⟨rfl, rfl, fun hall _ => List.eq_nil_iff_forall_not_mem.2 fun p hp => ?_⟩
      obtain ⟨hdead, hparent⟩ := hall p hp
      have hvalid : (e.process p).parentId ≠ emblaInvalidPid := by
        rw [hparent]
        decide
      obtain ⟨r, hr⟩ := waitChild_exists hp hdead hvalid
      rw [hparent, hnone] at hr
      cases hr
    · rw [hsome]
      simp only [hx, ne_eq, not_true_eq_false, if_false]
      obtain ⟨h1, h2, h3⟩ := Inv.reapRoot rounds e₁ hinv
      refine ⟨h1, h2.trans hr.scheduler, fun hall hlt => h3 (fun q hq => ?_) ?_⟩
      · have hproc := hr.process q
        rw [hproc]
        exact hall q ((hr.tracked q).1 hq).1
      · have := hr.count
        omega

theorem Inv.shutdown (h : e.Inv) (hs : e.state = .stopping) :
    ∃ e', emblaShutdown e = (0, e') ∧ e'.state = .stopped ∧ e'.scheduler = e.scheduler ∧
      ((∀ p, e.Tracked p → (e.process p).state = .terminated ∧ (e.process p).parentId = emblaRootPid) →
        e'.processManager.processes = []) := by
  unfold emblaShutdown emblaReapRootChildren
  obtain ⟨h1, h2, h3⟩ := Inv.reapRoot (e.processManager.processes.length + 1) e h
  rw [if_neg (not_not.2 hs)]
  simp only [h1, ne_eq, not_true_eq_false, if_false]
  exact ⟨_, rfl, rfl, h2, fun hall => h3 hall (Nat.lt_succ_self _)⟩

/-- Nothing is left in the tables and in the scheduler. -/
structure Clean (e : Embla) : Prop where
  processes : e.processManager.processes = []
  groups : e.processGroupManager.groups = []
  ready : schedulerReady e.scheduler = []
  current : e.scheduler.current = none

/-- A shutdown of processes that are all dead leaves nothing. -/
theorem Tended.shutdown (h : e.Tended) (hs : e.state = .stopping) (hquiet : e.Quiet) (hx : emblaShutdown e = (0, e')) :
    e'.Clean := by
  have hdead : ∀ p, e.Tracked p → (e.process p).state = .terminated := by
    intro p hp
    have hnone := List.countP_eq_zero.1 hquiet p hp
    have hread : (e.processHeap.read p).state = .terminated := by simpa using hnone
    exact hread
  have hroot : ∀ p, e.Tracked p → (e.process p).parentId = emblaRootPid := by
    intro p hp
    rcases h.rooted p hp with hroot | ⟨q, hq, -, hlive⟩
    · exact hroot
    · exact absurd (hdead q hq) hlive
  obtain ⟨e₁, hy, -, hsched, hempty⟩ := h.sound.inv.shutdown hs
  rw [hx] at hy
  cases hy
  have hprocesses := hempty fun p hp => ⟨hdead p hp, hroot p hp⟩
  have hsound : e'.Sound := by
    have hsteps := emblaShutdown_steps e
    rw [hx] at hsteps
    exact h.sound.steps hsteps
  obtain ⟨q, hq⟩ := h.placed
  have hnobody : e.scheduler.current.toList ++ q = [] := by
    refine List.eq_nil_iff_forall_not_mem.2 fun p hp => ?_
    obtain ⟨hp, hlive⟩ := (hq.mem p).1 hp
    exact hlive (hdead p hp)
  obtain ⟨hcurrent, hqueue⟩ := List.append_eq_nil_iff.1 hnobody
  refine ⟨hprocesses, List.eq_nil_iff_forall_not_mem.2 fun g hg => ?_, ?_, ?_⟩
  · -- a group would have a member, and the member would be tracked
    obtain ⟨p, hp⟩ := List.exists_mem_of_ne_nil _ (hsound.formed g hg).nonempty
    have htracked := (hsound.inv.member g hg p hp).1
    unfold Tracked at htracked
    rw [hprocesses] at htracked
    cases htracked
  · rw [hsched, schedulerReady_queue hq.queue, hqueue]
    rfl
  · rw [hsched]
    exact Option.toList_eq_nil_iff.1 hcurrent

/-! ## Before the run -/

/-- A runtime in which processes were spawned and signalled and nothing was reported yet. -/
structure Grown (e : Embla) : Prop where
  sound : e.Sound
  placed : ∃ q, e.Placed q
  rooted : e.Rooted
  live : ∀ p, e.Tracked p → (e.process p).state ≠ .terminated
  state : e.state = .stopped

theorem grown_create (host : Host) : (emblaCreate host).Grown :=
  ⟨sound_create host, ⟨[], placed_create host⟩, rooted_create host, fun _ hp => absurd hp List.not_mem_nil, rfl⟩

theorem Grown.onlyHost (h : e.Grown) (ho : e.OnlyHost e') : e'.Grown := by
  have hsound := h.sound.onlyHost ho
  obtain ⟨host, rfl⟩ := ho
  obtain ⟨q, hq⟩ := h.placed
  exact ⟨hsound, ⟨q, hq.congr rfl (fun _ => Iff.rfl) fun _ _ => Iff.rfl⟩, h.rooted, h.live, h.state⟩

theorem Grown.spawnedLive (h : ∀ p, e.Tracked p → (e.process p).state ≠ .terminated) (hinv : e.Inv) {parentId : Nat}
    {name : String} {g : GroupPtr} (hs : Spawned parentId name g e e') :
    ∀ p, e'.Tracked p → (e'.process p).state ≠ .terminated := by
  intro p hp
  rcases (hs.tracked p).1 hp with hp | rfl
  · rw [hs.old hinv hp]
    exact h p hp
  · obtain ⟨pid, -, hnew, -⟩ := hs.record
    rw [hnew]
    exact fun hc => by cases hc

theorem Grown.unspawnedLive (h : ∀ p, e.Tracked p → (e.process p).state ≠ .terminated) (hinv : e.Inv)
    (hsame : SameTables e e') (hproc : ∀ p < e.processHeap.next, e'.process p = e.process p) :
    ∀ p, e'.Tracked p → (e'.process p).state ≠ .terminated := by
  intro p hp
  rw [hsame.tracked] at hp
  rw [hproc p (hinv.alloc hp)]
  exact h p hp

theorem Grown.spawn (h : e.Grown) (name : String) : (emblaSpawn name e).2.Grown := by
  have hsound := h.sound.step (.spawn name e)
  have hinv := h.sound.inv
  obtain ⟨q, hq⟩ := h.placed
  have hplaced := hq.spawn hinv name
  have hrooted := h.rooted.spawn hinv name
  by_cases hs : e.Spawnable
  · obtain ⟨e₁, hx, hl⟩ := emblaSpawn_launched hinv hs name
    have hinv' := hinv.withNewGroup hs.1.groupRoom
    rw [hx] at hsound hplaced hrooted ⊢
    exact ⟨hsound, hplaced, hrooted,
      Grown.spawnedLive (e := e.withNewGroup) h.live hinv' hl, (Spawned.state hl).trans h.state⟩
  · obtain ⟨e₁, hx, hsame, hproc, -, hstate, -⟩ := emblaSpawn_failed hinv hs name
    rw [hx] at hsound hplaced hrooted ⊢
    exact ⟨hsound, hplaced, hrooted, Grown.unspawnedLive h.live hinv hsame hproc, hstate.trans h.state⟩

theorem Grown.spawnChild (h : e.Grown) {parent : ProcessPtr} (hp : e.Tracked parent) (name : String) :
    (emblaSpawnChild parent name e).2.Grown := by
  have hsound := h.sound.step (.spawnChild hp name)
  have hinv := h.sound.inv
  obtain ⟨q, hq⟩ := h.placed
  have hplaced := hq.spawnChild hinv hp name
  have hrooted := (h.rooted.spawnChild_iff hinv hp name).2 fun _ => h.live parent hp
  obtain ⟨g, -, -, ⟨-, e₁, hx, hs⟩ | ⟨-, e₁, hx, hu⟩⟩ := emblaSpawnChild_cases hinv hp name <;>
    rw [hx] at hsound hplaced hrooted ⊢
  · exact ⟨hsound, hplaced, hrooted, Grown.spawnedLive h.live hinv hs, hs.state.trans h.state⟩
  · exact ⟨hsound, hplaced, hrooted, Grown.unspawnedLive h.live hinv (hu.sameTables hinv) hu.others, hu.state.trans h.state⟩

/-- Spawns, with tracked parents, and signalling calls. -/
def Grows (e : Embla) : EmblaOp → Prop
  | .runtime (.spawnChild parent _) => e.Tracked parent
  | .runtime .stop => False
  | .runtime (.run _) => False
  | .runtime _ => True
  | _ => False

theorem grown_of_runs {host : Host} (h : Runs EmblaOp.exec Grows (emblaCreate host) e) : e.Grown := by
  refine h.holds (fun e e' op hI hop hx => ?_) (grown_create host)
  cases op with
  | runtime op =>
    cases runtimeTurn hx with
    | spawned name hop' he =>
      subst he
      exact hI.spawn name
    | spawnedChild parent name hop' he =>
      subst hop' he
      exact hI.spawnChild hop name
    | signalled hs => exact hI.onlyHost hs.1
    | stopping hop' =>
      subst hop'
      exact hop.elim
    | ran fuel result hop' =>
      subst hop'
      exact hop.elim
  | setMaxMembers => exact hop.elim
  | handleEvent => exact hop.elim
  | drainEvent => exact hop.elim
  | reapChild => exact hop.elim
  | reapProcess => exact hop.elim
  | dispatch => exact hop.elim
  | yield => exact hop.elim

/-! ## Whole runs -/

theorem Grown.run (h : e.Grown) (hstops : ∀ n, e.host.stops.get n = false) {fuel : Nat}
    (hx : emblaRun fuel e = some (0, e')) : e'.Clean := by
  have htended : e.Tended := ⟨h.sound, h.placed, h.rooted, hstops⟩
  have hstart : Tended { e with state := .running } := htended.withState .running
  have hloop : ∃ e₀ : Embla, e₀.Tended ∧ e₀.Winding ∧ emblaRunLoop fuel e₀ = some (0, e') := by
    unfold emblaRun at hx
    rw [if_neg (not_not.2 h.state)] at hx
    simp only at hx
    split at hx
    · split at hx
      · cases hx
      · exact ⟨_, hstart.dispatch, .inl rfl, hx⟩
    · exact ⟨_, hstart, .inl rfl, hx⟩
  obtain ⟨e₀, h₀, hw₀, hx₀⟩ := hloop
  obtain ⟨e₁, h₁, hs₁, hquiet, hshut⟩ := Tended.loop fuel e₀ h₀ hw₀ e' hx₀
  exact h₁.shutdown hs₁ hquiet hshut

/-- The loop leaves the runtime stopped, whatever it returns. -/
theorem Sound.loop_stopped : ∀ (fuel : Nat) (e : Embla), e.Sound → ∀ (result : Int) (e' : Embla),
    emblaRunLoop fuel e = some (result, e') → e'.state = .stopped
  | 0, _, _, _, _, hx => by cases hx
  | fuel + 1, e, h, result, e', hx => by
    have hcond : e.atCondition.Sound := h.steps (atCondition_steps e)
    have hbody : (emblaRunBody e.atCondition).2.Sound := hcond.steps (emblaRunBody_steps e.atCondition)
    rw [emblaRunLoop_succ] at hx
    cases hstate : e.atCondition.state with
    | running =>
      rw [if_pos hstate] at hx
      obtain ⟨failed, e₁, -, hb⟩ := emblaRunBody_round e.atCondition
      cases failed <;> rw [hb] at hx hbody
      · exact Sound.loop_stopped fuel e₁.roundEnd hbody result e' hx
      · cases hx
        rfl
    | stopping =>
      rw [if_neg (by rw [hstate]; exact fun hc => by cases hc), if_pos hstate] at hx
      obtain ⟨e₁, hshut, hstopped, -⟩ := hcond.inv.shutdown hstate
      rw [hshut] at hx
      cases hx
      exact hstopped
    | stopped =>
      rw [if_neg (by rw [hstate]; exact fun hc => by cases hc),
        if_neg (by rw [hstate]; exact fun hc => by cases hc)] at hx
      cases hx
      exact hstate

theorem Sound.run_stopped (h : e.Sound) (hs : e.state = .stopped) {fuel : Nat} {result : Int}
    (hx : emblaRun fuel e = some (result, e')) : e'.state = .stopped := by
  have hstart : Sound { e with state := .running } := h.step (.state e .running)
  unfold emblaRun at hx
  rw [if_neg (not_not.2 hs)] at hx
  simp only at hx
  split at hx
  · split at hx
    · cases hx
      rfl
    · exact Sound.loop_stopped fuel _ (hstart.step (.dispatch _)) result e' hx
  · exact Sound.loop_stopped fuel _ hstart result e' hx

/-- A run of freshly spawned processes that nobody stops and that returns 0 leaves nothing behind;
and a run that passes its entry guard, from whatever state, leaves the runtime stopped. -/
theorem quiet_runs_clean_up (host : Host) (e e' : Embla) (fuel : Nat) :
    (Runs EmblaOp.exec Grows (emblaCreate host) e → (∀ n, e.host.stops.get n = false) →
      emblaRun fuel e = some (0, e') → e'.Clean) ∧
    (EmblaRuns (emblaCreate host) e → e.state = .stopped → ∀ result, emblaRun fuel e = some (result, e') →
      e'.state = .stopped) := by
  constructor
  · intro hrun hstops hx
    exact (grown_of_runs hrun).run hstops hx
  · intro hrun hs result hx
    exact (sound_of_runs hrun).run_stopped hs hx

end Embla

/-- A parent and its child on a host on which the parent dies first. -/
def parentDiesFirst : Embla :=
  (emblaSpawnChild 0 "child" (emblaSpawn "parent" (emblaCreate (.generous exitsInTurn [] 0))).2).2

theorem quiet_runs_clean_up_parent_first :
    ∃ e', emblaRun 9 parentDiesFirst = some (0, e') ∧ e'.Clean ∧ e'.state = .stopped := by
  have hgrows : Runs EmblaOp.exec Embla.Grows (emblaCreate (.generous exitsInTurn [] 0)) parentDiesFirst :=
    ((Runs.refl _).next (.runtime (.spawn "parent")) trivial rfl).next (.runtime (.spawnChild 0 "child"))
      (List.mem_singleton_self 0) rfl
  have hruns : EmblaRuns (emblaCreate (.generous exitsInTurn [] 0)) parentDiesFirst :=
    ((Runs.refl _).next (.runtime (.spawn "parent")) trivial rfl).next (.runtime (.spawnChild 0 "child"))
      (List.mem_singleton_self 0) rfl
  have hend : (emblaRun 9 parentDiesFirst).map Prod.fst = some 0 := by decide +kernel
  obtain ⟨⟨result, e'⟩, hx, hr⟩ := Option.map_eq_some_iff.1 hend
  cases hr
  obtain ⟨hclean, hstopped⟩ := Embla.quiet_runs_clean_up (.generous exitsInTurn [] 0) parentDiesFirst e' 9
  exact ⟨e', hx, hclean hgrows (fun _ => rfl) hx, hstopped hruns (by decide +kernel) 0 hx⟩

end EmblaOs
