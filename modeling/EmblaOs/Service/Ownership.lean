/-
Who owns which process. A service spawns its process into a group of its own and is the only one to
reap it, so in every world of a run the running services, the tracked processes and the groups are
in bijection.
-/
import EmblaOs.Service.Invariant
import EmblaOs.Process.Membership

namespace EmblaOs

open Lib

namespace World

variable {w w' : World}

/-- Nothing is tracked but the processes of services, each alone in its group. -/
structure Owned (w : World) : Prop where
  inv : w.Inv
  owner : ∀ p, w.embla.Tracked p → ∃ s, (w.service s).process = some p
  alone : ∀ g ∈ w.embla.processGroupManager.groups, ∃ p, (w.embla.group g).processes = [p]

theorem Fresh.owned (h : w.Fresh) : w.Owned := by
  have hinv := h.inv
  obtain ⟨host, he⟩ := h.embla
  refine ⟨hinv, ?_, ?_⟩ <;> rw [he]
  · exact fun p hp => absurd hp List.not_mem_nil
  · exact fun g hg => absurd hg List.not_mem_nil

/-- A call that changes no service's process and no table. -/
theorem Owned.of_tables (h : w.Owned) (hinv : w'.Inv) (hprocess : ∀ s, (w'.service s).process = (w.service s).process)
    (htracked : ∀ p, w'.embla.Tracked p → w.embla.Tracked p)
    (hgroups : ∀ g ∈ w'.embla.processGroupManager.groups, g ∈ w.embla.processGroupManager.groups ∧
      (w'.embla.group g).processes = (w.embla.group g).processes) : w'.Owned := by
  refine ⟨hinv, fun p hp => ?_, fun g hg => ?_⟩
  · obtain ⟨s, hs⟩ := h.owner p (htracked p hp)
    exact ⟨s, (hprocess s).trans hs⟩
  · obtain ⟨hold, hx⟩ := hgroups g hg
    rw [hx]
    exact h.alone g hold

theorem Owned.logged (h : w'.Owned) (call : ServiceCall) (s : ServicePtr) (w : World) (result : Int) :
    (World.logged call s w result w').Owned :=
  ⟨h.inv.logged .., h.owner, h.alone⟩

theorem Owned.onlyHost (h : w.Owned) {e : Embla} (ho : w.embla.OnlyHost e) : (w.withEmbla e).Owned := by
  have hinv := h.inv.onlyHost ho
  obtain ⟨host, rfl⟩ := ho
  exact h.of_tables hinv (fun _ => rfl) (fun _ hp => hp) fun _ hg => ⟨hg, rfl⟩

theorem Owned.modifyService (h : w.Owned) (s : ServicePtr) {f : Service → Service}
    (hf : ∀ r, (f r).state = r.state ∧ (f r).process = r.process) : (w.modifyService s f).Owned := by
  refine h.of_tables (h.inv.modifyService s hf) (fun t => ?_) (fun _ hp => hp) fun _ hg => ⟨hg, rfl⟩
  rcases eq_or_ne t s with rfl | hne
  · rw [service_modifyService_self]
    exact (hf _).2
  · rw [service_modifyService_of_ne w f hne]

/-! ## The elementary calls -/

/-- The new process belongs to the started service, and the new group holds nothing else. -/
theorem Owned.launched (h : w.Owned) {s : ServicePtr} (hst : (w.service s).state = .stopped) {e : Embla} {name : String}
    (now : ℚ) (hsp : w.embla.Spawnable) (hl : Embla.Launched name w.embla e) :
    ((w.withEmbla e.ticked).modifyService s (Service.launched w.embla.processHeap.next now)).Owned := by
  refine ⟨h.inv.launched now hsp hl, fun p hp => ?_, fun g hg => ?_⟩
  · rcases (hl.tracked p).1 hp with hold | rfl
    · obtain ⟨t, ht⟩ := h.owner p hold
      have hne : t ≠ s := by
        rintro rfl
        rw [h.inv.idle t hst] at ht
        cases ht
      refine ⟨t, ?_⟩
      rw [service_modifyService_of_ne _ _ hne]
      exact ht
    · refine ⟨s, ?_⟩
      rw [service_modifyService_self]
      rfl
  · change ∃ p, (e.group g).processes = [p]
    rcases Embla.Launched.group_cases h.inv.embla hl hg with ⟨hold, hx⟩ | ⟨-, id, hostId, -, hx⟩ <;> rw [hx]
    · exact h.alone g hold
    · exact ⟨_, rfl⟩

theorem Owned.serviceStart (h : w.Owned) (s : ServicePtr) : (serviceStart s w).2.Owned := by
  rcases h.inv.start s with ⟨-, hx⟩ | ⟨-, -, e, he, hsame, -, -, hx⟩ | ⟨hst, hsp, e, hl, hx⟩ <;> rw [hx]
  · exact h.logged ..
  · have htracked := hsame.tracked
    refine (h.of_tables (h.inv.withEmbla he fun p => (htracked p).2) (fun _ => rfl) (fun p => (htracked p).1) ?_).logged ..
    intro g hg
    have hold : g ∈ w.embla.processGroupManager.groups := by rwa [← hsame.groups]
    exact ⟨hold, (hsame.members g hold).2⟩
  · exact (h.launched hst _ hsp hl).logged ..

theorem Owned.serviceStop (h : w.Owned) (s : ServicePtr) : (serviceStop s w).2.Owned := by
  rcases serviceStop_cases s w with ⟨-, hx⟩ | ⟨-, p, -, hx⟩ <;> rw [hx]
  · exact h.logged ..
  · have hflag := h.modifyService s (f := fun r => serviceSetStopRequested r true) fun _ => ⟨rfl, rfl⟩
    exact (hflag.onlyHost (emblaTerminate_host p w.embla)).logged ..

theorem Owned.serviceKill (h : w.Owned) (s : ServicePtr) : (serviceKill s w).2.Owned := by
  rcases serviceKill_cases s w with ⟨-, hx⟩ | ⟨-, p, -, hx⟩ <;> rw [hx]
  · exact h.logged ..
  · exact (h.onlyHost (emblaKill_host p w.embla)).logged ..

/-- The reaped process goes with its group, and no other group had it. -/
theorem Owned.serviceReap (h : w.Owned) (s : ServicePtr) : (serviceReap s w).2.Owned := by
  have hinv := h.inv.serviceReap s
  rcases h.inv.reap s with ⟨hx, -⟩ | ⟨p, e, -, hp, -, hreaped, -, hx⟩ <;> rw [hx] at hinv ⊢
  · exact h.logged ..
  · refine ⟨hinv, fun q hq => ?_, fun g hg => ?_⟩
    · obtain ⟨hold, hne⟩ := (hreaped.tracked q).1 hq
      obtain ⟨t, ht⟩ := h.owner q hold
      have hts : t ≠ s := by
        rintro rfl
        rw [hp] at ht
        cases ht
        exact hne rfl
      refine ⟨t, ?_⟩
      rw [service_logged, service_withEmbla, service_modifyService_of_ne _ _ hts]
      exact ht
    · change ∃ q, (e.group g).processes = [q]
      obtain ⟨hold, hmore⟩ := (hreaped.groups g).1 hg
      obtain ⟨q, hq⟩ := h.alone g hold
      obtain ⟨members, hx, hperm⟩ := hreaped.members g hold
      have hne : q ≠ p := by
        rintro rfl
        exact hmore hq
      rw [hq, List.erase_of_not_mem (by simpa using hne.symm)] at hperm
      refine ⟨q, ?_⟩
      rw [hx]
      exact List.perm_singleton.1 hperm

theorem Owned.drainOneEvent (h : w.Owned) : w.drainOneEvent.2.Owned := by
  have hh : Embla.Handled w.embla w.drainOneEvent.2.embla := Embla.drain_handled w.embla
  refine h.of_tables h.inv.drainOneEvent (fun _ => rfl) (fun p => (drain_tracked w.embla p).1) fun g hg => ?_
  rw [hh.groupManager] at hg
  exact ⟨hg, by rw [hh.group]⟩

theorem Owned.step (h : w.Owned) (hs : Step w w') : w'.Owned := by
  cases hs with
  | start s => exact h.serviceStart s
  | stop s => exact h.serviceStop s
  | kill s => exact h.serviceKill s
  | reap s => exact h.serviceReap s
  | tick s =>
    exact serviceTick_preserves (fun s _ h => h.serviceStart s) (fun s _ h => h.serviceReap s)
      (fun _ h => h.onlyHost ⟨_, rfl⟩) (fun _ s _ hf h => h.modifyService s hf) s h
  | drain => exact h.drainOneEvent
  | aged _ => exact h.onlyHost ⟨_, rfl⟩

/-! ## The bijection -/

/-- The running services. -/
def running (w : World) : Set ServicePtr := {s | (w.service s).state = .running}

structure Bijective (w : World) : Prop where
  running_iff : ∀ s, (w.service s).state = .running ↔ (w.service s).process ≠ none
  tracked : ∀ s p, (w.service s).process = some p → w.embla.Tracked p
  apart : ∀ s t p, (w.service s).process = some p → (w.service t).process = some p → s = t
  owner : ∀ p, w.embla.Tracked p → ∃! s, (w.service s).state = .running ∧ (w.service s).process = some p
  alone : ∀ p, w.embla.Tracked p → ∃! g, g ∈ w.embla.processGroupManager.groups ∧
    (w.embla.group g).id = (w.embla.process p).groupId ∧ (w.embla.group g).processes = [p]
  groupCount : w.embla.processGroupManager.groups.length = w.embla.processManager.processes.length
  serviceCount : w.running.encard = w.embla.processManager.processes.length

theorem Owned.owner_running (h : w.Owned) {p : ProcessPtr} (hp : w.embla.Tracked p) :
    ∃ s, (w.service s).state = .running ∧ (w.service s).process = some p := by
  obtain ⟨s, hs⟩ := h.owner p hp
  exact ⟨s, (h.inv.tracked hs).1, hs⟩

/-- The group a tracked process is in holds no other. -/
theorem Owned.group_of (h : w.Owned) {p : ProcessPtr} (hp : w.embla.Tracked p) :
    ∃ g ∈ w.embla.processGroupManager.groups, (w.embla.group g).processes = [p] := by
  obtain ⟨g, hg, hin⟩ := h.inv.embla.grouped p hp
  obtain ⟨q, hq⟩ := h.alone g hg
  rw [hq] at hin
  have hpq : p = q := List.mem_singleton.1 hin
  subst hpq
  exact ⟨g, hg, hq⟩

/-- Two groups of the table have different members, since a record names one group. -/
theorem Owned.group_inj (h : w.Owned) {p : ProcessPtr} {g g' : GroupPtr} (hg : g ∈ w.embla.processGroupManager.groups)
    (hg' : g' ∈ w.embla.processGroupManager.groups) (hx : (w.embla.group g).processes = [p])
    (hx' : (w.embla.group g').processes = [p]) : g = g' := by
  have hid : (w.embla.process p).groupId = (w.embla.group g).id :=
    (h.inv.embla.member g hg p (by rw [hx]; exact List.mem_singleton_self p)).2
  have hid' : (w.embla.process p).groupId = (w.embla.group g').id :=
    (h.inv.embla.member g' hg' p (by rw [hx']; exact List.mem_singleton_self p)).2
  exact List.inj_on_of_nodup_map h.inv.embla.groupTable.keyed.keys hg hg' (hid.symm.trans hid')

/-- Listing the one member of each group lists the tracked processes. -/
theorem Owned.group_count (h : w.Owned) :
    w.embla.processGroupManager.groups.length = w.embla.processManager.processes.length := by
  have hmember : ∀ g ∈ w.embla.processGroupManager.groups,
      (w.embla.group g).processes = [(w.embla.group g).processes.headD 0] := by
    intro g hg
    obtain ⟨p, hp⟩ := h.alone g hg
    rw [hp]
    rfl
  rw [← List.length_map (f := fun g => (w.embla.group g).processes.headD 0)]
  refine List.Perm.length_eq ((List.perm_ext_iff_of_nodup ?_ h.inv.embla.table.keyed.nodup).2 fun p => ?_)
  · refine List.Nodup.map_on (fun g hg g' hg' hx => ?_) h.inv.embla.groupTable.keyed.nodup
    refine h.group_inj hg hg' (hmember g hg) ?_
    rw [hmember g' hg', hx]
  · rw [List.mem_map]
    constructor
    · rintro ⟨g, hg, rfl⟩
      refine (h.inv.embla.member g hg _ ?_).1
      rw [hmember g hg]
      exact List.mem_singleton_self _
    · intro hp
      obtain ⟨g, hg, hx⟩ := h.group_of hp
      exact ⟨g, hg, by rw [hx]; rfl⟩

/-- Each running service has one of the tracked processes, and each of them is had. -/
theorem Owned.service_count (h : w.Owned) : w.running.encard = w.embla.processManager.processes.length := by
  have hown : ∀ s ∈ w.running, (w.service s).process = some ((w.service s).process.getD 0) := by
    intro s hs
    obtain ⟨p, hp, -⟩ := h.inv.owns s hs
    rw [hp]
    rfl
  have hbij : Set.BijOn (fun s => (w.service s).process.getD 0) w.running {p | w.embla.Tracked p} := by
    refine ⟨fun s hs => (h.inv.tracked (hown s hs)).2, fun s hs t ht hx => ?_, fun p hp => ?_⟩
    · refine h.inv.apart s t _ (hown s hs) ?_
      rw [hown t ht]
      exact congrArg some hx.symm
    · obtain ⟨s, hrun, hs⟩ := h.owner_running hp
      exact ⟨s, hrun, by simp only [hs, Option.getD_some]⟩
  calc w.running.encard = {p | w.embla.Tracked p}.encard := Set.encard_congr hbij.equiv
    _ = (w.embla.processManager.processes.toFinset : Set ProcessPtr).encard := by
        congr 1
        ext p
        simp [Embla.Tracked]
    _ = w.embla.processManager.processes.length := by
        rw [Set.encard_coe_eq_coe_finsetCard, List.toFinset_card_of_nodup h.inv.embla.table.keyed.nodup]

theorem Owned.bijective (h : w.Owned) : w.Bijective := by
  refine ⟨fun s => ⟨fun hs => ?_, fun hs => ?_⟩, fun s p hp => (h.inv.tracked hp).2, h.inv.apart, fun p hp => ?_,
    fun p hp => ?_, h.group_count, h.service_count⟩
  · obtain ⟨p, hp, -⟩ := h.inv.owns s hs
    rw [hp]
    exact Option.some_ne_none p
  · obtain ⟨p, hp⟩ := Option.ne_none_iff_exists'.1 hs
    exact (h.inv.tracked hp).1
  · obtain ⟨s, hs⟩ := h.owner_running hp
    exact ⟨s, hs, fun t ht => h.inv.apart t s p ht.2 hs.2⟩
  · obtain ⟨g, hg, hx⟩ := h.group_of hp
    refine ⟨g, ⟨hg, ?_, hx⟩, fun g' hg' => h.group_inj hg'.1 hg hg'.2.2 hx⟩
    exact (h.inv.embla.member g hg p (by rw [hx]; exact List.mem_singleton_self p)).2.symm

/-- Running services, tracked processes and groups correspond one to one in every world of a run. -/
theorem ownership_is_bijective {w₀ : World} (h₀ : w₀.Fresh) (hrun : Run w₀ w) : w.Bijective :=
  (hrun.invariant (fun _ _ => Owned.step) h₀.owned).bijective

/-- Two services are running, and one has ended and is not reaped. -/
theorem ownership_of_webAndDb :
    (bothRunning [.event (exitOf 0 1)]).drainOneEvent.2.Bijective ∧
    (bothRunning [.event (exitOf 0 1)]).drainOneEvent.2.embla.processManager.processes = [0, 1] :=
  ⟨ownership_is_bijective (webAndDbWith_fresh _) ((bothRunning_run _).next .drain trivial rfl), by decide +kernel⟩

end World

end EmblaOs
