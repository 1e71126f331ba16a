/-
The restart budget over a run that is driven by ticks. Events are drained or handled, the runtime works
for others besides. Beside the run a streak is kept, from the clock and the ends of the instances alone:
how many ended since the last one that was stable. The tick's own counter agrees with it, so the delays
double up to the maximum, the limit is met exactly, and every scheduled restart is made once at most and
not too early.
-/
import EmblaOs.Service.Budget
import EmblaOs.Process.Orphans
import Mathlib.Algebra.Order.Field.Rat
import Mathlib.Tactic.Positivity

namespace EmblaOs

open Lib

/-! ## Services and the runtime -/

/-- An operation on the services, or one on the runtime below them. -/
inductive DrivenOp
  | service (op : Op)
  | embla (op : EmblaOp)

def DrivenOp.exec : DrivenOp → World → Option World
  | .service op, w => op.exec w
  | .embla op, w => (op.exec w.embla).map w.withEmbla

/-- The operation is not the run loop and reaps no process of a service. -/
def EmblaOp.Spares (w : World) : EmblaOp → Prop
  | .runtime (.run _) => False
  | .reapChild parentId => ∀ s p, (w.service s).process = some p → (w.embla.process p).state = .terminated →
      (w.embla.process p).parentId ≠ parentId
  | .reapProcess processId => ∀ s p, (w.service s).process = some p → (w.embla.process p).state = .terminated →
      (w.embla.process p).id ≠ processId
  | _ => True

/-- Any call of a service, and what leaves the processes of services in the table. -/
def DrivenOp.Allowed (w : World) : DrivenOp → Prop
  | .service _ => True
  | .embla op => op.Valid w.embla ∧ op.Spares w

namespace World

variable {w w' : World}

/-- The tables are in order, also what the scheduler holds beyond them. -/
structure Ordered (w : World) : Prop where
  inv : w.Inv
  sound : w.embla.Sound

theorem Fresh.ordered (h : w.Fresh) : w.Ordered := by
  refine ⟨h.inv, ?_⟩
  obtain ⟨host, he⟩ := h.embla
  rw [he]
  exact Embla.sound_create host

theorem sound_serviceStart (h : w.embla.Sound) (s : ServicePtr) : (serviceStart s w).2.embla.Sound := by
  rcases serviceStart_cases s w with ⟨-, hx⟩ | ⟨-, e, hspawn, hx⟩ | ⟨-, p, e, hspawn, hx⟩ <;> rw [hx]
  · exact h
  all_goals
    have hspawned := h.step (.spawn (w.service s).name w.embla)
    rw [hspawn] at hspawned
  · exact hspawned
  · exact hspawned.onlyHost ⟨_, rfl⟩

theorem sound_serviceReap (h : w.embla.Sound) (s : ServicePtr) : (serviceReap s w).2.embla.Sound := by
  rcases serviceReap_cases s w with ⟨r, -, hx, -⟩ | ⟨p, -, -, -, ⟨-, hx⟩ | ⟨-, hx⟩⟩ <;> rw [hx]
  · exact h
  all_goals exact h.steps (Embla.emblaReapProcess_steps _ _)

theorem Step.sound (hs : Step w w') (h : w.embla.Sound) : w'.embla.Sound := by
  cases hs with
  | start s => exact sound_serviceStart h s
  | stop s =>
    rcases serviceStop_cases s w with ⟨-, hx⟩ | ⟨-, p, -, hx⟩ <;> rw [hx]
    · exact h
    · exact h.onlyHost (emblaTerminate_host p w.embla)
  | kill s =>
    rcases serviceKill_cases s w with ⟨-, hx⟩ | ⟨-, p, -, hx⟩ <;> rw [hx]
    · exact h
    · exact h.onlyHost (emblaKill_host p w.embla)
  | reap s => exact sound_serviceReap h s
  | tick s =>
    exact serviceTick_preserves (I := fun w => w.embla.Sound) (fun s _ h => sound_serviceStart h s)
      (fun s _ h => sound_serviceReap h s) (fun _ h => h.onlyHost ⟨_, rfl⟩) (fun _ _ _ _ h => h) s h
  | drain => exact h.drain
  | aged _ => exact h.onlyHost ⟨_, rfl⟩

theorem Ordered.step (h : w.Ordered) (hs : Step w w') : w'.Ordered := ⟨h.inv.step hs, hs.sound h.sound⟩

/-- The services keep their processes. -/
theorem Ordered.exec (h : w.Ordered) {op : DrivenOp} (ha : op.Allowed w) (hx : op.exec w = some w') : w'.Ordered := by
  cases op with
  | service op => exact Steps.invariant (fun _ _ => Ordered.step) (Op.exec_steps hx) h
  | embla op =>
    obtain ⟨hv, hspares⟩ := ha
    obtain ⟨e, he, rfl⟩ := Option.map_eq_some_iff.1 hx
    have hsound := h.sound.exec hv he
    refine ⟨⟨hsound.inv, fun s hs => ?_, h.inv.idle, h.inv.apart⟩, hsound⟩
    obtain ⟨p, hp, htracked⟩ := h.inv.owns s hs
    have hrun : ∀ fuel, op ≠ .runtime (.run fuel) := by
      rintro fuel rfl
      exact hspares
    refine ⟨p, hp, (h.inv.embla.exec_tracked hv hrun he htracked).resolve_right ?_⟩
    rintro ⟨hdead, rfl | rfl⟩ <;> exact hspares s p hp hdead rfl

end World

/-! ## The streak beside a run -/

/-- The `n`-th delay of a streak. -/
def backoffDelay (base max : ℚ) (n : Nat) : ℚ := min (base * 2 ^ min (n - 1) 30) max

/-- When the instance was started, how many instances ended since the last stable one, that one
counted, the delays scheduled since, latest first, and all restarts scheduled and made. -/
structure Streak where
  started : ℚ
  ended : Nat
  delays : List ℚ
  scheduled : Nat
  restarted : Nat

/-- A tick of `s` will find its instance ended. -/
def World.endsNow (w : World) (s : ServicePtr) : Bool :=
  !(w.service s).restartPending &&
    match (w.service s).process with
    | none => false
    | some p => (w.embla.process p).state = .terminated

namespace Streak

/-- An end is observed: a stable one begins a new streak. -/
def observed (now threshold : ℚ) (k : Streak) : Streak :=
  if now - k.started ≥ threshold then { k with ended := 1, delays := [] } else { k with ended := k.ended + 1 }

/-- What is noted of a tick of `s`. -/
def tick (s : ServicePtr) (w : World) (k : Streak) : Streak :=
  if w.endsNow s then
    let k := k.observed w.embla.host.clock.head (w.service s).restartStabilityThresholdSeconds
    if (serviceTick s w).1 = .reapedRestartScheduled then
      { k with
        delays := (((serviceTick s w).2.service s).restartAllowedAt - w.embla.host.clock.head) :: k.delays
        scheduled := k.scheduled + 1 }
    else k
  else if (serviceTick s w).1 = .restarted then
    -- the second reading of the clock in this tick is the one `service_start` makes
    { k with started := w.embla.host.clock.tail.head, restarted := k.restarted + 1 }
  else k

def next (s : ServicePtr) (op : DrivenOp) (w : World) (k : Streak) : Streak :=
  match op with
  | .service (.tick t) => if t = s then k.tick s w else k
  | _ => k

/-- An operation on the world with the streak beside it. -/
def exec (s : ServicePtr) (op : DrivenOp) (x : World × Streak) : Option (World × Streak) :=
  (op.exec x.1).map fun w => (w, x.2.next s op x.1)

end Streak

/-- The operations of a run in which `s` is driven by ticks, events come in, other services do what they
like, and so does whoever uses the runtime, but for the run loop and the processes of services: a due
restart of `s` spawns, and its policy wants another instance after every end. -/
def TickDriven (s : ServicePtr) (x : World × Streak) : DrivenOp → Prop
  | .embla op => DrivenOp.Allowed x.1 (.embla op)
  | .service (.start t) | .service (.stop t) | .service (.reap t) => t ≠ s
  | .service (.kill _) | .service .drain => True
  | .service (.tick t) => t = s →
      ((x.1.service s).restartPending = true → (x.1.service s).restartAllowedAt ≤ x.1.embla.host.clock.head →
        (emblaSpawn (x.1.service s).name (x.1.restartCleared s).embla).1 ≠ none) ∧
      ∀ p, (x.1.service s).process = some p → (x.1.embla.process p).state = .terminated →
        (x.1.service s).WantsRestart (x.1.embla.process p)
  | .service (.startAll _) | .service (.stopAll ..) => False

/-! ## The delays -/

theorem backoffDelay_mono {base max : ℚ} (hbase : 0 ≤ base) {m n : Nat} (h : m ≤ n) :
    backoffDelay base max m ≤ backoffDelay base max n := by
  have hexp : min (m - 1) 30 ≤ min (n - 1) 30 := by omega
  have hpow : (2 : ℚ) ^ min (m - 1) 30 ≤ 2 ^ min (n - 1) 30 := pow_le_pow_right₀ (by norm_num) hexp
  unfold backoffDelay
  exact min_le_min_right _ (mul_le_mul_of_nonneg_left hpow hbase)

theorem computeDelay_eq {service : Service} {n : Nat} (h : service.consecutiveRestartCount = n) :
    serviceRestartComputeDelay service =
      backoffDelay service.restartBaseDelaySeconds service.restartMaxDelaySeconds n := by
  have hexp : (if (if service.consecutiveRestartCount - 1 < 0 then 0 else service.consecutiveRestartCount - 1) > 30 then 30
      else if service.consecutiveRestartCount - 1 < 0 then 0 else service.consecutiveRestartCount - 1).toNat =
      min (n - 1) 30 := by
    rw [h]
    split <;> split <;> omega
  unfold serviceRestartComputeDelay backoffDelay
  simp only [hexp]
  split
  · rename_i hover
    exact (min_eq_right hover.le).symm
  · rename_i hunder
    exact (min_eq_left (not_lt.1 hunder)).symm

theorem backoffDelay_le_max (base max : ℚ) (n : Nat) : backoffDelay base max n ≤ max := min_le_right _ _

theorem World.endsNow_of_dead {w : World} {s : ServicePtr} {p : ProcessPtr} (hpend : (w.service s).restartPending = false)
    (hp : (w.service s).process = some p) (hdead : (w.embla.process p).state = .terminated) : w.endsNow s = true := by
  unfold World.endsNow
  rw [hpend, hp]
  simp [hdead]

/-- A tick restarts only what is pending and due. -/
theorem serviceTick_restarted {s : ServicePtr} {w : World} (h : (serviceTick s w).1 = .restarted) :
    (w.service s).restartPending = true ∧ (w.service s).restartAllowedAt ≤ w.embla.host.clock.head := by
  obtain ⟨result, v, hr, -, hout⟩ := serviceTick_ways s w
  rw [hr] at h
  cases hout with
  | waiting => cases h
  | due hp hge => exact ⟨hp, not_lt.1 hge⟩
  | idle =>
    split at h <;> cases h
  | stopHonoured => cases h
  | noRestart => cases h
  | restart =>
    rw [serviceScheduleRestart_eq] at h
    change (if _ then _ else _) = _ at h
    split at h <;> cases h

/-! ## The counter agrees with the streak -/

/-- The policy of `r` is that of `service`. -/
structure Service.SamePolicy (r service : Service) : Prop where
  base : service.restartBaseDelaySeconds = r.restartBaseDelaySeconds
  max : service.restartMaxDelaySeconds = r.restartMaxDelaySeconds
  threshold : service.restartStabilityThresholdSeconds = r.restartStabilityThresholdSeconds
  limit : service.maxConsecutiveRestarts = r.maxConsecutiveRestarts

theorem Service.samePolicy_rescheduled (now : ℚ) (service : Service) : service.SamePolicy (service.rescheduled now) := by
  unfold Service.rescheduled
  split <;> exact ⟨rfl, rfl, rfl, rfl⟩

theorem Service.rescheduled_stopRequested (now : ℚ) (service : Service) :
    (service.rescheduled now).stopRequested = service.stopRequested := by
  unfold Service.rescheduled
  split <;> rfl

/-- What holds between the record of `s`, first `r`, and the streak. -/
structure Backing (r : Service) (s : ServicePtr) (w : World) (k : Streak) : Prop where
  ordered : w.Ordered
  policy : r.SamePolicy (w.service s)
  unasked : (w.service s).stopRequested = false
  count : (w.service s).consecutiveRestartCount = k.ended
  started : (w.service s).state = .running → (w.service s).lastStartTime = k.started
  pending : (w.service s).restartPending = true → (w.service s).state = .stopped
  balance : k.scheduled = k.restarted + if (w.service s).restartPending then 1 else 0
  room : (w.service s).state = .running ∨ (w.service s).restartPending = true →
    (k.ended : Int) ≤ max r.maxConsecutiveRestarts 0
  top : (k.ended : Int) ≤ max r.maxConsecutiveRestarts 0 + 1
  sorted : k.delays.Pairwise (· ≥ ·)
  below : ∀ d ∈ k.delays, d ≤ backoffDelay r.restartBaseDelaySeconds r.restartMaxDelaySeconds k.ended

/-- A start that succeeds, with the time it notes. -/
theorem serviceStart_launched {s : ServicePtr} {w : World} (hinv : w.Inv) (hstart : (serviceStart s w).1 = 0) :
    ∃ p, (serviceStart s w).2.service s = (w.service s).launched p w.embla.host.clock.head := by
  rcases hinv.start s with ⟨-, hx⟩ | ⟨-, -, e, -, -, -, -, hx⟩ | ⟨-, -, e, hl, hx⟩ <;> rw [hx] at hstart ⊢
  · cases hstart
  · cases hstart
  · have hclock : e.host.clock = w.embla.host.clock := Spawned.clock (e := w.embla.withNewGroup) hl
    refine ⟨w.embla.processHeap.next, ?_⟩
    rw [← hclock]
    exact World.service_modifyService_self ..

namespace Backing

variable {r : Service} {s : ServicePtr} {w w' : World} {k : Streak} {p : ProcessPtr}

theorem skip (h : Backing r s w k) (hordered : w'.Ordered) (hrec : w'.service s = w.service s) : Backing r s w' k :=
  ⟨hordered, by rw [hrec]; exact h.policy, by rw [hrec]; exact h.unasked, by rw [hrec]; exact h.count,
    by rw [hrec]; exact h.started, by rw [hrec]; exact h.pending, by rw [hrec]; exact h.balance,
    by rw [hrec]; exact h.room, h.top, h.sorted, h.below⟩

/-- The first instance. -/
theorem first (hordered : w.Ordered) (hcount : (w.service s).consecutiveRestartCount = 0)
    (hpend : (w.service s).restartPending = false) (hstop : (w.service s).stopRequested = false)
    (hstart : (serviceStart s w).1 = 0) :
    Backing (w.service s) s (serviceStart s w).2 ⟨w.embla.host.clock.head, 0, [], 0, 0⟩ := by
  obtain ⟨p, hrec⟩ := serviceStart_launched hordered.inv hstart
  refine ⟨hordered.step (.start s w), ?_, ?_, ?_, ?_, ?_, ?_, ?_, ?_, List.Pairwise.nil, fun d hd => absurd hd List.not_mem_nil⟩
  · rw [hrec]
    exact ⟨rfl, rfl, rfl, rfl⟩
  · rw [hrec]
    exact hstop
  · rw [hrec]
    exact hcount
  · rw [hrec]
    exact fun _ => rfl
  · rw [hrec]
    intro hc
    rw [show ((w.service s).launched p w.embla.host.clock.head).restartPending = _ from hpend] at hc
    cases hc
  · rw [hrec, show ((w.service s).launched p w.embla.host.clock.head).restartPending = _ from hpend]
    rfl
  · exact fun _ => le_max_right _ _
  · have hzero := le_max_right (w.service s).maxConsecutiveRestarts 0
    show (0 : Int) ≤ _
    omega

/-- A tick before the delay is over, and one that restarts. -/
theorem tick_pending (h : Backing r s w k) (hpend : (w.service s).restartPending = true)
    (hspawn : (w.service s).restartAllowedAt ≤ w.embla.host.clock.head →
      (emblaSpawn (w.service s).name (w.restartCleared s).embla).1 ≠ none) :
    Backing r s (serviceTick s w).2 (k.tick s w) := by
  have hends : w.endsNow s = false := by
    unfold World.endsNow
    rw [hpend]
    rfl
  have hordered := h.ordered.step (.tick s w)
  unfold Streak.tick
  rw [hends]
  simp only [Bool.false_eq_true, if_false]
  obtain ⟨result, v, hr, hv, hout⟩ := serviceTick_ways s w
  rw [hv] at hordered
  rw [hr, hv]
  cases hout with
  | waiting => exact h.skip hordered rfl
  | due _ hge =>
    have hdue := not_lt.1 hge
    -- a pending restart finds the service stopped, so only the spawn could fail
    have hclear := w.service_restartCleared s
    have hstart : (serviceStart s (w.restartCleared s)).1 = 0 := by
      rcases serviceStart_cases s (w.restartCleared s) with ⟨hne, -⟩ | ⟨-, e, hnone, -⟩ | ⟨-, q, e, -, hx⟩
      · rw [hclear] at hne
        exact absurd (h.pending hpend) hne
      · rw [hclear] at hnone
        exact absurd (congrArg Prod.fst hnone) (hspawn hdue)
      · rw [hx]
    obtain ⟨q, hrec⟩ := serviceStart_launched (h.ordered.inv.restartCleared s) hstart
    rw [hclear] at hrec
    rw [if_pos hstart, if_pos rfl]
    refine ⟨hordered, ?_, ?_, ?_, ?_, ?_, ?_, ?_, h.top, h.sorted, h.below⟩
    · rw [hrec]
      exact ⟨h.policy.base, h.policy.max, h.policy.threshold, h.policy.limit⟩
    · rw [hrec]
      exact h.unasked
    · rw [hrec]
      exact h.count
    · rw [hrec]
      exact fun _ => rfl
    · rw [hrec]
      exact fun hc => by cases hc
    · rw [hrec]
      have hbalance := h.balance
      rw [hpend] at hbalance
      exact hbalance
    · exact fun _ => h.room (.inr hpend)
  | idle hp => rw [hpend] at hp; cases hp
  | stopHonoured hp => rw [hpend] at hp; cases hp
  | noRestart hp => rw [hpend] at hp; cases hp
  | restart hp => rw [hpend] at hp; cases hp

/-- A tick that finds the instance alive, or none. -/
theorem tick_idle (h : Backing r s w k) (hpend : (w.service s).restartPending = false) (hends : w.endsNow s = false) :
    Backing r s (serviceTick s w).2 (k.tick s w) := by
  have hx : serviceTick s w = (.nothing, .logged .reap s w 0 w) := by
    rcases h.ordered.inv.reap s with ⟨hx, -⟩ | ⟨p, -, -, hp, hdead, -⟩
    · unfold serviceTick
      rw [if_neg (by rw [hpend]; decide), hx]
      rfl
    · unfold World.endsNow at hends
      rw [hpend, hp] at hends
      simp [hdead] at hends
  have hordered := h.ordered.step (.tick s w)
  unfold Streak.tick
  rw [hends, hx] at *
  exact h.skip hordered rfl

/-- The streak an end is observed in. -/
def streakAt (s : ServicePtr) (w : World) (k : Streak) : Streak :=
  k.observed w.embla.host.clock.head (w.service s).restartStabilityThresholdSeconds

/-- The tick after an end counts as the streak does. -/
theorem nextRestartCount_observed (h : Backing r s w k) (hp : (w.service s).process = some p) :
    ((w.service s).reaped (w.embla.process p)).nextRestartCount w.embla.host.clock.head = (streakAt s w k).ended := by
  have hstarted := h.started (h.ordered.inv.tracked hp).1
  have hcount := h.count
  rw [Service.nextRestartCount_eq]
  unfold streakAt Streak.observed
  rw [← hstarted]
  change (if w.embla.host.clock.head - (w.service s).lastStartTime ≥ (w.service s).restartStabilityThresholdSeconds then 0
    else (w.service s).consecutiveRestartCount) + 1 = _
  split
  · rfl
  · rw [hcount]
    rfl

/-- What the tick after an end returns and leaves. -/
theorem tick_end (h : Backing r s w k) (hends : w.Ends s p) :
    (((streakAt s w k).ended : Int) ≤ r.maxConsecutiveRestarts ∧ (serviceTick s w).1 = .reapedRestartScheduled ∧
      ((serviceTick s w).2.service s).restartPending = true ∧
      ((serviceTick s w).2.service s).restartAllowedAt = w.embla.host.clock.head +
        backoffDelay r.restartBaseDelaySeconds r.restartMaxDelaySeconds (streakAt s w k).ended) ∨
    (r.maxConsecutiveRestarts < ((streakAt s w k).ended : Int) ∧ (serviceTick s w).1 = .gaveUp ∧
      ((serviceTick s w).2.service s).restartPending = false ∧
      ((serviceTick s w).2.service s).permanentlyFailed = true) := by
  obtain ⟨hresult, hrec⟩ := hends.tick h.ordered.inv
  have hnext := h.nextRestartCount_observed hends.process
  have hlimit := h.policy.limit
  rw [hresult, hrec, hnext, hlimit]
  by_cases hgive : ((streakAt s w k).ended : Int) > r.maxConsecutiveRestarts
  · right
    have hover : ((w.service s).reaped (w.embla.process p)).nextRestartCount w.embla.host.clock.head >
        ((w.service s).reaped (w.embla.process p)).maxConsecutiveRestarts := by
      rw [hnext]
      exact hlimit ▸ hgive
    rw [if_pos hgive, Service.rescheduled_gaveUp hover]
    exact ⟨hgive, rfl, hends.pending, rfl⟩
  · left
    have hunder : ¬ ((w.service s).reaped (w.embla.process p)).nextRestartCount w.embla.host.clock.head >
        ((w.service s).reaped (w.embla.process p)).maxConsecutiveRestarts := by
      rw [hnext]
      exact hlimit ▸ hgive
    rw [if_neg hgive, Service.rescheduled_pending hunder]
    refine ⟨not_lt.1 hgive, rfl, rfl, ?_⟩
    show w.embla.host.clock.head + serviceRestartComputeDelay (((w.service s).reaped (w.embla.process p)).counted _) = _
    rw [computeDelay_eq hnext]
    show _ + backoffDelay (w.service s).restartBaseDelaySeconds (w.service s).restartMaxDelaySeconds _ = _
    rw [h.policy.base, h.policy.max]

theorem streakAt_ended_le (h : Backing r s w k) (hrun : (w.service s).state = .running) :
    ((streakAt s w k).ended : Int) ≤ max r.maxConsecutiveRestarts 0 + 1 := by
  have hroom := h.room (.inl hrun)
  have hzero := le_max_right r.maxConsecutiveRestarts 0
  unfold streakAt Streak.observed
  split
  · show (1 : Int) ≤ _
    omega
  · show ((k.ended + 1 : Nat) : Int) ≤ _
    omega

/-- The delays of the streak so far are no longer than the next. -/
theorem streakAt_delays (h : Backing r s w k) (hbase : 0 ≤ r.restartBaseDelaySeconds) :
    (streakAt s w k).delays.Pairwise (· ≥ ·) ∧ ∀ d ∈ (streakAt s w k).delays,
      d ≤ backoffDelay r.restartBaseDelaySeconds r.restartMaxDelaySeconds (streakAt s w k).ended := by
  unfold streakAt Streak.observed
  split
  · exact ⟨List.Pairwise.nil, fun d hd => absurd hd List.not_mem_nil⟩
  · exact ⟨h.sorted, fun d hd => (h.below d hd).trans (backoffDelay_mono hbase (Nat.le_succ _))⟩

theorem streakAt_kept (s : ServicePtr) (w : World) (k : Streak) :
    (streakAt s w k).scheduled = k.scheduled ∧ (streakAt s w k).restarted = k.restarted := by
  unfold streakAt Streak.observed
  split <;> exact ⟨rfl, rfl⟩

theorem tick_ended (h : Backing r s w k) (hbase : 0 ≤ r.restartBaseDelaySeconds) (hends : w.Ends s p) :
    Backing r s (serviceTick s w).2 (k.tick s w) := by
  have hordered := h.ordered.step (.tick s w)
  have hrun := (h.ordered.inv.tracked hends.process).1
  obtain ⟨-, hrec⟩ := hends.tick h.ordered.inv
  obtain ⟨hsorted, hbelow⟩ := h.streakAt_delays hbase
  obtain ⟨hscheduled, hrestarted⟩ := streakAt_kept s w k
  have hbalance := h.balance
  rw [hends.pending] at hbalance
  have hnow : w.endsNow s = true := World.endsNow_of_dead hends.pending hends.process hends.dead
  have hpolicy := ((w.service s).reaped (w.embla.process p)).samePolicy_rescheduled w.embla.host.clock.head
  rw [← hrec] at hpolicy
  have hsame : r.SamePolicy ((serviceTick s w).2.service s) :=
    ⟨hpolicy.base.trans h.policy.base, hpolicy.max.trans h.policy.max, hpolicy.threshold.trans h.policy.threshold,
      hpolicy.limit.trans h.policy.limit⟩
  have hunasked : ((serviceTick s w).2.service s).stopRequested = false := by
    rw [hrec, Service.rescheduled_stopRequested]
    exact h.unasked
  have hcount : ((serviceTick s w).2.service s).consecutiveRestartCount = (streakAt s w k).ended := by
    rw [hrec, Service.rescheduled_count, h.nextRestartCount_observed hends.process]
  have hstopped : ((serviceTick s w).2.service s).state = .stopped := by
    rw [hrec, (Service.rescheduled_kept _ _).1]
    rfl
  have hnotRunning : ((serviceTick s w).2.service s).state ≠ .running := by
    rw [hstopped]
    decide
  have htop := h.streakAt_ended_le hrun
  -- one more restart is scheduled, or the service is given up and none is
  unfold Streak.tick
  rw [hnow, if_pos rfl]
  rcases h.tick_end hends with ⟨hle, hresult, hpend, hallowed⟩ | ⟨hlt, hresult, hpend, -⟩
  · rw [hresult, if_pos rfl]
    have hdelay : ((serviceTick s w).2.service s).restartAllowedAt - w.embla.host.clock.head =
        backoffDelay r.restartBaseDelaySeconds r.restartMaxDelaySeconds (streakAt s w k).ended := by
      rw [hallowed]
      ring
    refine ⟨hordered, hsame, hunasked, hcount, fun hc => absurd hc hnotRunning, fun _ => hstopped, ?_, ?_, htop, ?_, ?_⟩
    · rw [hpend]
      show (streakAt s w k).scheduled + 1 = (streakAt s w k).restarted + 1
      rw [hscheduled, hrestarted, hbalance]
      rfl
    · exact fun _ => hle.trans (le_max_left _ _)
    · refine List.Pairwise.cons (fun d hd => ?_) hsorted
      rw [hdelay]
      exact hbelow d hd
    · intro d hd
      rcases List.mem_cons.1 hd with rfl | hd
      · exact le_of_eq hdelay
      · exact hbelow d hd
  · rw [hresult, if_neg (by decide)]
    refine ⟨hordered, hsame, hunasked, hcount, fun hc => absurd hc hnotRunning, fun _ => hstopped, ?_, ?_, htop, hsorted, hbelow⟩
    · rw [hpend]
      show (streakAt s w k).scheduled = (streakAt s w k).restarted
      rw [hscheduled, hrestarted, hbalance]
      rfl
    · rintro (hc | hc)
      · exact absurd hc hnotRunning
      · rw [hpend] at hc
        cases hc

/-- Any tick of the service. -/
theorem tick (h : Backing r s w k) (hbase : 0 ≤ r.restartBaseDelaySeconds) (hok : TickDriven s (w, k) (.service (.tick s))) :
    Backing r s (serviceTick s w).2 (k.tick s w) := by
  obtain ⟨hspawn, hwants⟩ := hok rfl
  by_cases hpend : (w.service s).restartPending = true
  · exact h.tick_pending hpend (hspawn hpend)
  have hpend' : (w.service s).restartPending = false := by simpa using hpend
  by_cases hends : w.endsNow s = true
  · unfold World.endsNow at hends
    cases hp : (w.service s).process with
    | none =>
      rw [hp] at hends
      simp at hends
    | some p =>
      rw [hp, hpend'] at hends
      have hdead : (w.embla.process p).state = .terminated := by simpa using hends
      exact h.tick_ended hbase ⟨hpend', hp, hdead, h.unasked, hwants p hp hdead⟩
  · exact h.tick_idle hpend' (by simpa using hends)

theorem step (hbase : 0 ≤ r.restartBaseDelaySeconds) {x x' : World × Streak} {op : DrivenOp} (h : Backing r s x.1 x.2)
    (hok : TickDriven s x op) (hx : Streak.exec s op x = some x') : Backing r s x'.1 x'.2 := by
  obtain ⟨w, k⟩ := x
  obtain ⟨w', hexec, rfl⟩ := Option.map_eq_some_iff.1 hx
  cases op with
  | embla op =>
    have hordered : w'.Ordered := h.ordered.exec (show DrivenOp.Allowed w (.embla op) from hok) hexec
    obtain ⟨e, -, rfl⟩ := Option.map_eq_some_iff.1 hexec
    exact h.skip hordered rfl
  | service op =>
    have hordered : w'.Ordered := h.ordered.exec (show DrivenOp.Allowed w (.service op) from trivial) hexec
    cases op with
    | start t =>
      cases hexec
      exact h.skip hordered (serviceStart_other (Ne.symm hok) w)
    | stop t =>
      cases hexec
      exact h.skip hordered (serviceStop_other (Ne.symm hok) w)
    | kill t =>
      cases hexec
      exact h.skip hordered (serviceKill_service t s w)
    | reap t =>
      cases hexec
      exact h.skip hordered (serviceReap_other (Ne.symm hok) w)
    | tick t =>
      cases hexec
      show Backing r s _ (if t = s then k.tick s w else k)
      by_cases hts : t = s
      · subst hts
        rw [if_pos rfl]
        exact h.tick hbase hok
      · rw [if_neg hts]
        exact h.skip hordered (serviceTick_other (Ne.symm hts) w)
    | drain =>
      cases hexec
      exact h.skip hordered rfl
    | startAll registry => exact hok.elim
    | stopAll registry timeoutSeconds fuel => exact hok.elim

end Backing

/-- The streak beside a first start. -/
def Streak.first (w : World) : Streak := ⟨w.embla.host.clock.head, 0, [], 0, 0⟩

/-- What the next tick does when the instance `p` of `s` has ended: it schedules with the delay of the
streak, within the limit of `r`, or gives up. -/
def BacksOff (r : Service) (s : ServicePtr) (w : World) (k : Streak) : Prop :=
  if ((k.tick s w).ended : Int) ≤ r.maxConsecutiveRestarts then
    (serviceTick s w).1 = .reapedRestartScheduled ∧
      ((serviceTick s w).2.service s).restartAllowedAt = w.embla.host.clock.head +
        backoffDelay r.restartBaseDelaySeconds r.restartMaxDelaySeconds (k.tick s w).ended
  else
    (serviceTick s w).1 = .gaveUp ∧ ((serviceTick s w).2.service s).state = .stopped ∧
      ((serviceTick s w).2.service s).restartPending = false ∧
      ((serviceTick s w).2.service s).permanentlyFailed = true

theorem Backing.backsOff {r : Service} {s : ServicePtr} {w : World} {k : Streak} {p : ProcessPtr}
    (h : Backing r s w k) (hends : w.Ends s p) : BacksOff r s w k := by
  have hended : (k.tick s w).ended = (Backing.streakAt s w k).ended := by
    unfold Streak.tick
    rw [World.endsNow_of_dead hends.pending hends.process hends.dead, if_pos rfl]
    split <;> rfl
  obtain ⟨-, hrec⟩ := hends.tick h.ordered.inv
  unfold BacksOff
  rw [hended]
  rcases h.tick_end hends with ⟨hle, hresult, -, hallowed⟩ | ⟨hlt, hresult, hpend, hfailed⟩
  · rw [if_pos hle]
    exact ⟨hresult, hallowed⟩
  · rw [if_neg (not_le.2 hlt)]
    refine ⟨hresult, ?_, hpend, hfailed⟩
    rw [hrec, (Service.rescheduled_kept _ _).1]
    rfl

/-- In every run driven by ticks after a first start: each end is met by the delay that its place in
the streak asks for or by giving up, the delays of a streak do not decrease and stay within the
maximum, no restart comes early, each scheduled one is made at most once, and the counter stays an
`int`. -/
theorem restarts_back_off {w₀ w₁ w : World} (h₀ : w₀.Fresh) (hrun₀ : Runs DrivenOp.exec DrivenOp.Allowed w₀ w₁)
    (s : ServicePtr)
    (hbase : 0 ≤ (w₁.service s).restartBaseDelaySeconds)
    (hlimit : (w₁.service s).maxConsecutiveRestarts < 2 ^ 31 - 1)
    (hcount : (w₁.service s).consecutiveRestartCount = 0) (hpend : (w₁.service s).restartPending = false)
    (hstop : (w₁.service s).stopRequested = false) (hstart : (serviceStart s w₁).1 = 0) (k : Streak)
    (hrun : Runs (Streak.exec s) (TickDriven s) ((serviceStart s w₁).2, Streak.first w₁) (w, k)) :
    (∀ p, (w.service s).process = some p → (w.embla.process p).state = .terminated →
      (w.service s).WantsRestart (w.embla.process p) → BacksOff (w₁.service s) s w k) ∧
    (k.delays.Pairwise (· ≥ ·) ∧ ∀ d ∈ k.delays, d ≤ (w₁.service s).restartMaxDelaySeconds) ∧
    ((serviceTick s w).1 = .restarted → (w.service s).restartPending = true ∧
      (w.service s).restartAllowedAt ≤ w.embla.host.clock.head) ∧
    k.scheduled = k.restarted + (if (w.service s).restartPending then 1 else 0) ∧
    0 ≤ (w.service s).consecutiveRestartCount ∧ (w.service s).consecutiveRestartCount ≤ 2 ^ 31 - 1 := by
  have hfirst := Backing.first (hrun₀.holds (fun _ _ _ h ha hx => World.Ordered.exec h ha hx) h₀.ordered) hcount hpend hstop hstart
  have h : Backing (w₁.service s) s w k :=
    hrun.holds (I := fun x => Backing (w₁.service s) s x.1 x.2) (fun _ _ _ h hok hx => h.step hbase hok hx) hfirst
  refine ⟨fun p hp hdead hwants => ?_, ⟨h.sorted, fun d hd => (h.below d hd).trans (backoffDelay_le_max ..)⟩,
    serviceTick_restarted, h.balance, ?_, ?_⟩
  · have hidle : (w.service s).restartPending = false := by
      by_contra hc
      have hstopped := h.pending (by simpa using hc)
      rw [(h.ordered.inv.tracked hp).1] at hstopped
      cases hstopped
    exact h.backsOff ⟨hidle, hp, hdead, h.unasked, hwants⟩
  · rw [h.count]
    exact Int.natCast_nonneg _
  · have htop := h.top
    rw [h.count]
    omega

/-! ## Thirty-three restarts -/

/-- A worker that may be restarted 33 times in a row. -/
def patientWorker : Service :=
  { alwaysWorker with maxConsecutiveRestarts := 33, restartBaseDelaySeconds := 1, restartMaxDelaySeconds := 2 ^ 35 }

/-- Every child crashes. The clock stands still from a start to the end that follows, and doubles from one
end to the next. -/
def crashingHost : Host :=
  { Host.generous [] [] 0 with
    wait4s := fun n => .event (exitOf n 1)
    clock := fun n => ((2 ^ ((n + 1) / 3) : Nat) : ℚ) }

def patientWorld : World := .boot patientWorker crashingHost

/-- After an operation that returns. -/
def Streak.after (op : DrivenOp) (x : World × Streak) : World × Streak := (Streak.exec 0 op x).getD x

/-- A crash is handled, a tick schedules the restart and another makes it. -/
def crashLap (x : World × Streak) : World × Streak :=
  Streak.after (.service (.tick 0)) (Streak.after (.service (.tick 0)) (Streak.after (.embla .handleEvent) x))

/-- The worker has crashed and been restarted `n` times. -/
def crashed (n : Nat) : World × Streak := crashLap^[n] ((serviceStart 0 patientWorld).2, .first patientWorld)

/-- The next crash is handled. -/
def crashedAgain (n : Nat) : World × Streak := Streak.after (.embla .handleEvent) (crashed n)

/-- The worker wants a restart whatever happens, and one that is pending can be made. -/
def tickMet (x : World × Streak) : Bool :=
  (x.1.service 0).restartPolicy = .always ∧
    ((x.1.service 0).restartPending = true → (emblaSpawn (x.1.service 0).name (x.1.restartCleared 0).embla).1 ≠ none)

/-- So are the two ticks of the next laps. -/
def lapsMet : Nat → World × Streak → Bool
  | 0, _ => true
  | laps + 1, x =>
    let x' := Streak.after (.embla .handleEvent) x
    tickMet x' && tickMet (Streak.after (.service (.tick 0)) x') && lapsMet laps (crashLap x)

theorem tickMet_driven {x : World × Streak} (h : tickMet x = true) : TickDriven 0 x (.service (.tick 0)) := by
  obtain ⟨hpolicy, hspawn⟩ := of_decide_eq_true h
  exact fun _ => ⟨fun hpend _ => hspawn hpend, fun _ _ _ => .inl hpolicy⟩

theorem crashLap_run : ∀ (laps : Nat) (x : World × Streak), lapsMet laps x = true →
    Runs (Streak.exec 0) (TickDriven 0) x (crashLap^[laps] x)
  | 0, _, _ => .refl _
  | laps + 1, x, h => by
    unfold lapsMet at h
    simp only [Bool.and_eq_true] at h
    obtain ⟨⟨hfirst, hsecond⟩, hrest⟩ := h
    have hlap : Runs (Streak.exec 0) (TickDriven 0) x (crashLap x) :=
      (((Runs.refl x).next (.embla .handleEvent) ⟨trivial, trivial⟩ rfl).next (.service (.tick 0)) (tickMet_driven hfirst) rfl).next
        (.service (.tick 0)) (tickMet_driven hsecond) rfl
    exact hlap.trans (crashLap_run laps (crashLap x) hrest)

theorem crashedAgain_run {n : Nat} (h : lapsMet n (crashed 0) = true) :
    Runs (Streak.exec 0) (TickDriven 0) (crashed 0) (crashedAgain n) :=
  (crashLap_run n (crashed 0) h).next (.embla .handleEvent) ⟨trivial, trivial⟩ rfl

/-- The delay has stopped doubling when the worker is restarted for the last time, and one end more is one
too many. -/
theorem restarts_back_off_crashed :
    ((serviceTick 0 (crashedAgain 32).1).1 = .reapedRestartScheduled ∧
      ((serviceTick 0 (crashedAgain 32).1).2.service 0).restartAllowedAt = (crashedAgain 32).1.embla.host.clock.head + 2 ^ 30 ∧
      (crashedAgain 32).2.delays.take 3 = [2 ^ 30, 2 ^ 30, 2 ^ 29]) ∧
    (serviceTick 0 (crashedAgain 33).1).1 = .gaveUp := by
  have hback : ∀ n p ended, lapsMet n (crashed 0) = true → ((crashedAgain n).1.service 0).process = some p →
      ((crashedAgain n).1.embla.process p).state = .terminated → ((crashedAgain n).1.service 0).restartPolicy = .always →
      ((crashedAgain n).2.tick 0 (crashedAgain n).1).ended = ended →
      (ended ≤ 33 → (serviceTick 0 (crashedAgain n).1).1 = .reapedRestartScheduled ∧
        ((serviceTick 0 (crashedAgain n).1).2.service 0).restartAllowedAt =
          (crashedAgain n).1.embla.host.clock.head + backoffDelay 1 (2 ^ 35) ended) ∧
      (33 < ended → (serviceTick 0 (crashedAgain n).1).1 = .gaveUp) := by
    intro n p ended hmet hp hdead hpolicy hended
    have hrun : Runs (Streak.exec 0) (TickDriven 0) ((serviceStart 0 patientWorld).2, .first patientWorld)
        ((crashedAgain n).1, (crashedAgain n).2) := crashedAgain_run hmet
    have hnext := (restarts_back_off (World.boot_fresh ⟨rfl, rfl, rfl, rfl, rfl, rfl⟩ _) (Runs.refl patientWorld) 0
      (by decide +kernel) (by decide +kernel) rfl rfl rfl (by decide +kernel) _ hrun).1 p hp hdead (.inl hpolicy)
    have hlimit : (patientWorld.service 0).maxConsecutiveRestarts = 33 := rfl
    unfold BacksOff at hnext
    rw [hended, hlimit] at hnext
    refine ⟨fun hle => ?_, fun hlt => ?_⟩
    · rw [if_pos (by omega)] at hnext
      exact hnext
    · rw [if_neg (by omega)] at hnext
      exact hnext.1
  obtain ⟨hlast, -⟩ := hback 32 32 33 (by decide +kernel) (by decide +kernel) (by decide +kernel) (by decide +kernel)
    (by decide +kernel)
  obtain ⟨-, hover⟩ := hback 33 33 34 (by decide +kernel) (by decide +kernel) (by decide +kernel) (by decide +kernel)
    (by decide +kernel)
  have hdelay : backoffDelay 1 (2 ^ 35) 33 = 2 ^ 30 := by decide +kernel
  rw [hdelay] at hlast
  obtain ⟨hresult, hallowed⟩ := hlast (by omega)
  exact ⟨⟨hresult, hallowed, by decide +kernel⟩, hover (by omega)⟩

end EmblaOs
