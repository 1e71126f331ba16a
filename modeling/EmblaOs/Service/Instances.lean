/-
The supervisor and its host. While services are started, stopped, watched and restarted, their processes
end whenever they like, in the middle of `start_all` as well as between two of its polls. In whatever
order that happens, the children of the host are the live instances of the running services, one each;
what a service shows of its last end is how a child of it ended; and every instance that was ever started
either is still a child or is one of the deaths that were reported.
-/
import EmblaOs.Process.Agreement
import EmblaOs.Service.Capacity
import EmblaOs.Service.Families
import EmblaOs.Service.Ownership

namespace EmblaOs

open Lib

def HostCall.isFork : HostCall → Bool
  | .forked _ _ => true
  | _ => false

/-- A wait for one particular child. -/
def HostCall.isCollect : HostCall → Bool
  | .collected _ => true
  | _ => false

namespace HostTable

/-! ## Children that end in between -/

/-- These calls can be made, first one first, and leave `t'`, with children ending before, between and
after them. -/
inductive Follows : HostTable → List HostCall → HostTable → Prop
  | rest (t : HostTable) : Follows t [] t
  | call {t t₁ t' : HostTable} {call : HostCall} {calls : List HostCall} (h : t.answer call = some t₁)
      (h' : Follows t₁ calls t') : Follows t (call :: calls) t'
  | ends {t t' : HostTable} {calls : List HostCall} {pid : Int} {status : WaitStatus} (usage : Rusage)
      (h : t.children pid = some .running) (ended : status.Death)
      (h' : Follows (t.set pid (some (.zombie status usage ended))) calls t') : Follows t calls t'

variable {t t' u : HostTable} {calls calls' : List HostCall} {call : HostCall} {pid group : Int}

theorem set_idem (child child' : Option ChildState) : (t.set pid child).set pid child' = t.set pid child' := by
  unfold set
  simp only [Function.update_idem]

theorem set_comm {pid' : Int} (h : pid' ≠ pid) (child child' : Option ChildState) :
    (t.set pid child).set pid' child' = (t.set pid' child').set pid child := by
  unfold set
  simp only [Function.update_comm h]

theorem set_free (h : t.children pid = none) : t.set pid none = t := by
  unfold set
  rw [← h, Function.update_eq_self]

theorem Follows.append (h : t.Follows (calls ++ calls') t') : ∃ u, t.Follows calls u ∧ u.Follows calls' t' := by
  generalize hall : calls ++ calls' = all at h
  induction h generalizing calls with
  | rest t =>
    obtain ⟨rfl, rfl⟩ := List.append_eq_nil_iff.1 hall
    exact ⟨t, .rest t, .rest t⟩
  | call hanswer hrest ih =>
    cases calls with
    | nil =>
      obtain rfl : calls' = _ := hall
      exact ⟨_, .rest _, .call hanswer hrest⟩
    | cons first calls =>
      obtain ⟨rfl, hmore⟩ := List.cons_eq_cons.1 hall
      obtain ⟨u, hu, hu'⟩ := ih hmore
      exact ⟨u, .call hanswer hu, hu'⟩
  | ends usage hrunning ended _ ih =>
    obtain ⟨u, hu, hu'⟩ := ih hall
    exact ⟨u, .ends usage hrunning ended hu, hu'⟩

/-- Before a call only ends happen. -/
theorem Follows.first (h : t.Follows (call :: calls) t') :
    ∃ u v, t.Follows [] u ∧ u.answer call = some v ∧ v.Follows calls t' := by
  generalize hall : call :: calls = all at h
  induction h with
  | rest t => cases hall
  | call hanswer hrest ih =>
    obtain ⟨rfl, rfl⟩ := List.cons_eq_cons.1 hall
    exact ⟨_, _, .rest _, hanswer, hrest⟩
  | ends usage hrunning ended _ ih =>
    obtain ⟨u, v, hu, hanswer, hrest⟩ := ih hall
    exact ⟨u, v, .ends usage hrunning ended hu, hanswer, hrest⟩

theorem Follows.trans (h : t.Follows [] u) (h' : u.Follows calls t') : t.Follows calls t' := by
  generalize hno : ([] : List HostCall) = no at h
  induction h with
  | rest => exact h'
  | call => cases hno
  | ends usage hrunning ended _ ih => exact .ends usage hrunning ended (ih h' hno)

/-- A child that was just added can be left out of account. -/
theorem Follows.without {child : ChildState} (h : HostTable.Follows (t.set pid (some child)) [] t')
    (hfree : t.children pid = none) :
    ∃ u child', t.Follows [] u ∧ u.children pid = none ∧ t' = u.set pid (some child') := by
  generalize hstart : t.set pid (some child) = start at h
  generalize hno : ([] : List HostCall) = no at h
  induction h generalizing t child with
  | rest =>
    subst hstart
    exact ⟨t, child, .rest t, hfree, rfl⟩
  | call => cases hno
  | @ends _ _ _ pid' status usage hrunning ended _ ih =>
    subst hstart
    rcases eq_or_ne pid' pid with rfl | hne
    · exact ih hfree (set_idem (some child) _).symm hno
    · have hold : t.children pid' = some .running := by
        unfold set at hrunning
        simpa only [Function.update_of_ne hne] using hrunning
      have hfree' : (t.set pid' (some (.zombie status usage ended))).children pid = none :=
        (Function.update_of_ne hne.symm ..).trans hfree
      obtain ⟨u, child', hu, hnot, hx⟩ := ih hfree' (set_comm hne.symm _ (some child)) hno
      exact ⟨u, child', .ends usage hold ended hu, hnot, hx⟩

/-- What one operation asks of the host: nothing, one call, or a fork that it takes back. -/
inductive Brief : List HostCall → Prop
  | none : Brief []
  | one (call : HostCall) : Brief [call]
  | takenBack (pid group : Int) : Brief [.forked pid group, .killed pid .sigkill .ok, .collected pid]

theorem replay_one_of {v : HostTable} (h : t.answer call = some v) : t.replay [call] = some v := by
  unfold replay
  rw [h]
  rfl

/-- A fork that is taken back comes down to nothing, as in `replay_takenBack`, also when children end meanwhile. -/
theorem Follows.takenBack (h : t.Follows [.forked pid group, .killed pid .sigkill .ok, .collected pid] t') :
    ∃ u, t.Follows [] u ∧ u.replay [.forked pid group, .killed pid .sigkill .ok, .collected pid] = some u ∧
      u.Follows [] t' := by
  obtain ⟨u, v, hu, hfork, h⟩ := h.first
  obtain ⟨hfree, rfl⟩ := answer_forked hfork
  obtain ⟨v₁, v₂, hv₁, hkill, h⟩ := h.first
  obtain ⟨u₁, child₁, hu₁, hfree₁, rfl⟩ := hv₁.without hfree
  obtain rfl := Option.some.inj hkill
  obtain ⟨v₃, v₄, hv₃, hcollect, h⟩ := h.first
  obtain ⟨u₂, child₂, hu₂, hfree₂, rfl⟩ := hv₃.without hfree₁
  rw [answer_collected hcollect, set_idem, set_free hfree₂] at h
  refine ⟨u, hu, ?_, hu₁.trans (hu₂.trans h)⟩
  have hthere : (u.set pid (some .running)).children pid = some .running := Function.update_self ..
  simp only [replay, answer, hfree, hthere, Option.bind_some, set_idem, set_free hfree]

/-- The calls of one operation happen at one point, with ends before and after. -/
theorem Follows.brief (h : t.Follows calls t') (hb : Brief calls) :
    ∃ u v, t.Follows [] u ∧ u.replay calls = some v ∧ v.Follows [] t' := by
  cases hb with
  | none => exact ⟨t, t, .rest t, rfl, h⟩
  | one call =>
    obtain ⟨u, v, hu, hanswer, hv⟩ := h.first
    exact ⟨u, v, hu, replay_one_of hanswer, hv⟩
  | takenBack pid group =>
    obtain ⟨u, hu, hreplay, hv⟩ := h.takenBack
    exact ⟨u, u, hu, hreplay, hv⟩

theorem Follows.deaths (h : t.Follows calls t') : ∀ event ∈ t.deaths, event ∈ t'.deaths := by
  induction h with
  | rest t => exact fun _ hin => hin
  | @call t t₁ t' call calls hanswer _ ih =>
    refine fun event hin => ih event ?_
    cases call with
    | forked pid group =>
      obtain ⟨-, rfl⟩ := answer_forked hanswer
      exact hin
    | collected pid =>
      rw [answer_collected hanswer]
      exact hin
    | reported report =>
      rcases answer_reported hanswer with ⟨-, -, rfl⟩ | ⟨-, -, rfl⟩
      · exact hin
      · exact List.mem_cons_of_mem _ hin
    | killed pid signal answer =>
      cases hanswer
      exact hin
    | killedGroup group signal answer =>
      cases hanswer
      exact hin
  | ends usage hrunning ended _ ih => exact ih

/-! ## No child is lost -/

/-- How many children there are. -/
noncomputable def out (t : HostTable) : ℕ∞ := {pid | t.children pid ≠ none}.encard

theorem out_added (h : t.children pid = none) (child : ChildState) : (t.set pid (some child)).out = t.out + 1 := by
  have hmore : {pid' | (t.set pid (some child)).children pid' ≠ none} = insert pid {pid' | t.children pid' ≠ none} := by
    ext pid'
    unfold set
    rcases eq_or_ne pid' pid with rfl | hne
    · simp
    · simp [hne]
  unfold out
  rw [hmore, Set.encard_insert_of_notMem (not_not_intro h)]

theorem out_removed (h : t.children pid ≠ none) : (t.set pid none).out + 1 = t.out := by
  obtain ⟨child, hchild⟩ := Option.ne_none_iff_exists'.1 h
  have hback : (t.set pid none).set pid (some child) = t := by
    rw [set_idem, ← hchild]
    unfold set
    rw [Function.update_eq_self]
  have hfree : (t.set pid none).children pid = none := Function.update_self ..
  rw [← out_added hfree child, hback]

theorem out_changed (h : t.children pid ≠ none) (child : ChildState) : (t.set pid (some child)).out = t.out := by
  have hfree : (t.set pid none).children pid = none := Function.update_self ..
  rw [← out_removed h, ← out_added hfree child, set_idem]

/-- The children and the deaths together, which only forks and waits change. -/
noncomputable def known (t : HostTable) : ℕ∞ := t.out + t.deaths.length

theorem known_answer (h : t.answer call = some t') :
    t'.known + (if call.isCollect then 1 else 0 : ℕ) = t.known + (if call.isFork then 1 else 0 : ℕ) := by
  cases call with
  | forked pid group =>
    obtain ⟨hfree, rfl⟩ := answer_forked h
    show (t.set pid _).out + _ + 0 = t.out + _ + 1
    rw [out_added hfree, add_zero, add_right_comm]
    rfl
  | collected pid =>
    have hthere : t.children pid ≠ none := by
      intro hc
      simp only [answer, hc] at h
      cases h
    obtain rfl := answer_collected h
    show (t.set pid _).out + _ + 1 = t.out + _ + 0
    rw [← out_removed hthere, add_zero, add_right_comm]
    rfl
  | reported event =>
    rcases answer_reported h with ⟨-, -, rfl⟩ | ⟨ended, hzombie, rfl⟩
    · rfl
    · have hthere : t.children event.hostId.pid ≠ none := by
        rw [hzombie]
        exact Option.some_ne_none _
      show (t.set event.hostId.pid none).out + ((t.deaths.length + 1 : ℕ) : ℕ∞) + 0 = t.out + _ + 0
      rw [← out_removed hthere, Nat.cast_add, Nat.cast_one, add_zero, add_zero]
      rw [add_assoc, add_comm _ (1 : ℕ∞), ← add_assoc]
  | killed pid signal answer =>
    cases h
    rfl
  | killedGroup group signal answer =>
    cases h
    rfl

/-- A child that was forked is a child still, has been waited for, or its death was reported. -/
theorem Follows.known (h : t.Follows calls t') :
    t'.known + calls.countP HostCall.isCollect = t.known + calls.countP HostCall.isFork := by
  induction h with
  | rest t => rfl
  | @call t t₁ t' call calls hanswer _ ih =>
    rw [List.countP_cons, List.countP_cons, Nat.cast_add, Nat.cast_add, ← add_assoc, ← add_assoc, ih, add_right_comm,
      known_answer hanswer, add_right_comm]
  | @ends t t' calls pid status usage hrunning ended _ ih =>
    have hthere : t.children pid ≠ none := by
      rw [hrunning]
      exact Option.some_ne_none _
    have hsame : HostTable.known (t.set pid (some (.zombie status usage ended))) = t.known := by
      unfold HostTable.known
      rw [out_changed hthere]
      rfl
    rw [ih, hsame]

end HostTable

/-! ## What one call of the orchestrator asks -/

/-- What the service shows of its last end, exit code first. -/
def Service.lastEnd (service : Service) : Int × Int := (service.lastExitCode, service.lastTermSignal)

namespace Embla

variable {e e' : Embla} {t t' : HostTable} {p : ProcessPtr}

/-- The agreement is about the records and the tables. -/
theorem Agrees.aged (h : e.Agrees t) {host : Host} (haged : e.host.Aged host) : Agrees { e with host := host } t := by
  obtain ⟨allocs, clock, rfl⟩ := haged
  exact h.kept rfl (fun p _ => .refl _) (fun p hp => hp) fun p hp => hp.1

theorem Agrees.idle (h : e.Agrees t) (hf : t.Follows [] t') : e.Agrees t' := by
  generalize hno : ([] : List HostCall) = no at hf
  induction hf with
  | rest => exact h
  | call => cases hno
  | ends usage hrunning ended _ ih => exact ih (h.ends hrunning) hno

/-- The calls of one function of the runtime. -/
theorem replay_of_trace (calls : List HostCall)
    (htrace : e'.host.trace = calls.reverse ++ e.host.trace) (h : t.replay calls = some t') :
    t.replay (newCalls e e') = some t' := by
  rw [newCalls_append _ htrace, List.reverse_reverse]
  exact h

theorem Agrees.spawns (h : e.Agrees t) (hinv : e.Inv) (hfresh : e.FreshFork) (hback : e.host.CanTakeBack) {name : String}
    {result : Option ProcessPtr} (hx : emblaSpawn name e = (result, e')) (calls : List HostCall)
    (htrace : e'.host.trace = calls.reverse ++ e.host.trace) (hreplay : t.replay calls = some t') : e'.Agrees t' := by
  obtain rfl : (emblaSpawn name e).2 = e' := congrArg Prod.snd hx
  exact h.spawn hinv hfresh hback name (replay_of_trace calls htrace hreplay)

end Embla

namespace World

variable {w w' : World} {calls : List HostCall}

/-- One step of the orchestrator as the host sees it, with the calls in the order they were made. -/
structure Moves (w w' : World) (calls : List HostCall) : Prop where
  trace : w'.embla.host.trace = calls.reverse ++ w.embla.host.trace
  brief : HostTable.Brief calls
  agrees : ∀ t t', w.embla.Agrees t → t.replay calls = some t' → w'.embla.Agrees t'
  starts : w'.starts + calls.countP HostCall.isCollect = w.starts + calls.countP HostCall.isFork
  shown : ∀ s, (w'.service s).lastEnd = (w.service s).lastEnd ∨
    ∃ p, w.embla.Tracked p ∧ (w.embla.process p).state = .terminated ∧
      (w'.service s).lastEnd = (w.embla.process p).ending

/-- Nothing is asked. -/
theorem Moves.quiet (htrace : w'.embla.host.trace = w.embla.host.trace)
    (hagrees : ∀ t, w.embla.Agrees t → w'.embla.Agrees t) (hcalls : w'.calls = w.calls)
    (hshown : ∀ s, (w'.service s).lastEnd = (w.service s).lastEnd) : w.Moves w' [] := by
  refine ⟨htrace, .none, fun t t' h hreplay => ?_, ?_, fun s => .inl (hshown s)⟩
  · obtain rfl := Option.some.inj hreplay
    exact hagrees t h
  · unfold World.starts
    rw [hcalls]
    rfl

theorem Moves.logged (h : w.Moves w' calls) {call : ServiceCall} {result : Int} (hno : ¬ (call = .start ∧ result = 0))
    (s : ServicePtr) (v : World) : w.Moves (World.logged call s v result w') calls := by
  refine ⟨h.trace, h.brief, h.agrees, ?_, h.shown⟩
  rw [starts_logged, if_neg hno, Nat.add_zero]
  exact h.starts

theorem Moves.unchanged (w : World) : w.Moves w [] := .quiet rfl (fun _ h => h) rfl fun _ => rfl

theorem Moves.aged {host : Host} (h : w.embla.host.Aged host) : w.Moves (w.withEmbla { w.embla with host := host }) [] := by
  have htrace : host.trace = w.embla.host.trace := by
    obtain ⟨allocs, clock, rfl⟩ := h
    rfl
  exact .quiet htrace (fun _ hagrees => hagrees.aged h) rfl fun _ => rfl

theorem lastEnd_modifyService (s : ServicePtr) {f : Service → Service} (hf : ∀ r, (f r).lastEnd = r.lastEnd)
    (t : ServicePtr) : ((w.modifyService s f).service t).lastEnd = (w.service t).lastEnd := by
  rcases eq_or_ne t s with rfl | hne
  · rw [service_modifyService_self]
    exact hf _
  · rw [service_modifyService_of_ne w f hne]

theorem Moves.flags (s : ServicePtr) {f : Service → Service} (hf : ∀ r, (f r).lastEnd = r.lastEnd) :
    w.Moves (w.modifyService s f) [] := .quiet rfl (fun _ h => h) rfl (lastEnd_modifyService s hf)

/-- A spawn that fails takes back what it forked. -/
theorem Moves.refused (hinv : w.Inv) (hfresh : w.embla.FreshFork) (hback : w.embla.host.CanTakeBack) {name : String}
    {e : Embla} (hx : emblaSpawn name w.embla = (none, e)) : ∃ calls, w.Moves (w.withEmbla e) calls := by
  have ha : w.embla.host.Attempted (emblaSpawn name w.embla).2.host := emblaSpawn_attempted (by rw [hx])
  rw [hx] at ha
  rcases ha.takenBack hback with htrace | ⟨pid, group, htrace⟩
  · exact ⟨[], htrace, .none, fun _ _ h => h.spawns hinv.embla hfresh hback hx _ htrace, rfl, fun _ => .inl rfl⟩
  · exact ⟨[.forked pid group, .killed pid .sigkill .ok, .collected pid], htrace, .takenBack pid group,
      fun _ _ h => h.spawns hinv.embla hfresh hback hx _ htrace, rfl, fun _ => .inl rfl⟩

theorem serviceStart_moves (hinv : w.Inv) (s : ServicePtr) (hfresh : w.embla.FreshFork)
    (hback : w.embla.host.CanTakeBack) : ∃ calls, w.Moves (serviceStart s w).2 calls := by
  rcases serviceStart_cases s w with ⟨-, hx⟩ | ⟨-, e, hspawn, hx⟩ | ⟨-, p, e, hspawn, hx⟩ <;> rw [hx]
  · exact ⟨[], (Moves.unchanged w).logged (by simp) s w⟩
  · obtain ⟨calls, h⟩ := Moves.refused hinv hfresh hback hspawn
    exact ⟨calls, h.logged (by simp) s w⟩
  · by_cases hs : w.embla.Spawnable
    swap
    · obtain ⟨e', hx', -⟩ := Embla.emblaSpawn_failed hinv.embla hs (w.service s).name
      rw [hx'] at hspawn
      cases hspawn
    obtain ⟨e', hx', hl⟩ := Embla.emblaSpawn_launched hinv.embla hs (w.service s).name
    rw [hx'] at hspawn
    cases hspawn
    obtain ⟨child, -, -, -, htrace⟩ := hl.record
    refine ⟨[.forked child.pid _], htrace, .one _, fun t t' h hreplay => ?_, ?_, fun r => .inl ?_⟩
    · exact (h.spawns hinv.embla hfresh hback hx' [.forked child.pid _] htrace hreplay).aged ⟨_, _, rfl⟩
    · rw [starts_logged]
      rfl
    · exact lastEnd_modifyService (w := w.withEmbla e.ticked) s (f := Service.launched _ _) (fun _ => rfl) r

theorem Moves.signalled (hinv : w.Inv) (guard : Prop) [Decidable guard] (p : ProcessPtr) (signal : Signal) (w' : World)
    (hembla : w'.embla = (if guard then (-1, w.embla) else executorSignal p signal w.embla).2) (hcalls : w'.calls = w.calls)
    (hshown : ∀ s, (w'.service s).lastEnd = (w.service s).lastEnd) : ∃ calls, w.Moves w' calls := by
  by_cases hg : guard
  · rw [if_pos hg] at hembla
    refine ⟨[], .quiet (by rw [hembla]) (fun t h => ?_) hcalls hshown⟩
    rw [hembla]
    exact h
  · rw [if_neg hg] at hembla
    rcases Embla.executorSignal_trace p signal w.embla with hsame | ⟨answer, htrace⟩
    · refine ⟨[], .quiet (by rw [hembla, hsame]) (fun t h => ?_) hcalls hshown⟩
      rw [hembla, hsame]
      exact h
    · refine ⟨[.killed _ signal answer], by rw [hembla]; exact htrace, .one _, fun t t' h hreplay => ?_, ?_,
        fun s => .inl (hshown s)⟩
      · rw [hembla]
        exact h.signal hinv.embla p signal (Embla.replay_of_trace [.killed _ signal answer] htrace hreplay)
      · unfold World.starts
        rw [hcalls]
        rfl

theorem serviceStop_moves (hinv : w.Inv) (s : ServicePtr) : ∃ calls, w.Moves (serviceStop s w).2 calls := by
  rcases serviceStop_cases s w with ⟨-, hx⟩ | ⟨-, p, -, hx⟩ <;> rw [hx]
  · exact ⟨[], (Moves.unchanged w).logged (by simp) s w⟩
  · obtain ⟨calls, h⟩ := Moves.signalled hinv _ p .sigterm
      ((w.modifyService s fun r => serviceSetStopRequested r true).withEmbla (emblaTerminate p w.embla).2) rfl rfl
      (lastEnd_modifyService (w := w) s (f := fun r => serviceSetStopRequested r true) fun _ => rfl)
    exact ⟨calls, h.logged (by simp) s w⟩

theorem serviceKill_moves (hinv : w.Inv) (s : ServicePtr) : ∃ calls, w.Moves (serviceKill s w).2 calls := by
  rcases serviceKill_cases s w with ⟨-, hx⟩ | ⟨-, p, -, hx⟩ <;> rw [hx]
  · exact ⟨[], (Moves.unchanged w).logged (by simp) s w⟩
  · obtain ⟨calls, h⟩ := Moves.signalled hinv _ p .sigkill (w.withEmbla (emblaKill p w.embla).2) rfl rfl fun _ => rfl
    exact ⟨calls, h.logged (by simp) s w⟩

theorem drainOneEvent_moves (hinv : w.Inv) : ∃ calls, w.Moves w.drainOneEvent.2 calls := by
  have hl : Embla.Listened w.embla (serviceRegistryDrainOneEvent w.embla).2 :=
    ⟨Embla.drain_heard w.embla, Embla.drain_measured w.embla⟩
  have hshort : ∀ calls, (serviceRegistryDrainOneEvent w.embla).2.host.trace = calls.reverse ++ w.embla.host.trace →
      HostTable.Brief calls → calls.countP HostCall.isCollect = calls.countP HostCall.isFork →
      w.Moves w.drainOneEvent.2 calls := by
    intro calls htrace hb hcount
    refine ⟨htrace, hb, fun t t' h hreplay => h.listened hinv.embla hl (Embla.replay_of_trace calls htrace hreplay), ?_,
      fun _ => .inl rfl⟩
    rw [hcount]
    rfl
  cases hl.heard with
  | told event hw ht hx => exact ⟨_, hshort [.reported event] hx (.one _) rfl⟩
  | silent hw hx => exact ⟨_, hshort [] (by rw [hx]; exact Embla.polled_trace_silent hw) .none rfl⟩

/-- A reap asks nothing, and shows how the process it takes away ended. -/
theorem serviceReap_moves (hinv : w.Inv) (s : ServicePtr) : w.Moves (serviceReap s w).2 [] := by
  rcases hinv.reap s with ⟨hx, -⟩ | ⟨p, e, -, hp, hdead, hreaped, -, hx⟩ <;> rw [hx]
  · exact (Moves.unchanged w).logged (by simp) s w
  · have htrace : e.host.trace = w.embla.host.trace := by rw [hreaped.host]
    have hmoves : w.Moves ((w.modifyService s (Service.reaped (w.embla.process p))).withEmbla e) [] := by
      refine ⟨htrace, .none, fun t t' h hreplay => ?_, rfl, fun t => ?_⟩
      · exact h.reaped hinv.embla hreaped hdead (Embla.replay_of_trace [] htrace hreplay)
      · rcases eq_or_ne t s with rfl | hne
        · refine .inr ⟨p, (hinv.tracked hp).2, hdead, ?_⟩
          rw [service_withEmbla, service_modifyService_self]
          rfl
        · rw [service_withEmbla, service_modifyService_of_ne w _ hne]
          exact .inl rfl
    exact hmoves.logged (by simp) s w

/-! ## A whole run -/

/-- No start so far found a host about to hand out the pid of a process that was still in the table, or
one on which a fork could not be taken back. -/
def WellHosted (w : World) : Prop := ∀ c ∈ w.calls, c.call = .start → c.embla.FreshFork ∧ c.embla.host.CanTakeBack

/-- Whatever table the calls since `w₀` have left agrees with the world. -/
structure Hosted (w₀ w : World) : Prop where
  inv : w.Inv
  hosted : w.WellHosted → ∃ calls, w.embla.host.trace = calls.reverse ++ w₀.embla.host.trace ∧
    w.starts + calls.countP HostCall.isCollect = calls.countP HostCall.isFork ∧
    ∀ t, HostTable.boot.Follows calls t → w.embla.Agrees t ∧
      ∀ s, (w.service s).lastEnd = (w₀.service s).lastEnd ∨
        ∃ event ∈ t.deaths, (w.service s).lastEnd = event.status.ending

theorem Fresh.hosted {w₀ : World} (h : w₀.Fresh) : Hosted w₀ w₀ := by
  refine ⟨h.inv, fun _ => ⟨[], rfl, ?_, fun t hf => ⟨Embla.Agrees.idle ?_ hf, fun _ => .inl rfl⟩⟩⟩
  · unfold World.starts
    rw [h.calls]
    rfl
  · obtain ⟨host, he⟩ := h.embla
    rw [he]
    exact Embla.agrees_create host

variable {w₀ : World}

theorem Hosted.move (h : Hosted w₀ w) (hinv : w'.Inv) (hlog : ∀ c ∈ w.calls, c ∈ w'.calls)
    (hmoves : w'.WellHosted → ∃ calls, w.Moves w' calls) : Hosted w₀ w' := by
  refine ⟨hinv, fun hwell => ?_⟩
  obtain ⟨calls, htrace, hstarts, hall⟩ := h.hosted fun c hc => hwell c (hlog c hc)
  obtain ⟨more, hm⟩ := hmoves hwell
  refine ⟨calls ++ more, ?_, ?_, fun t hf => ?_⟩
  · rw [hm.trace, htrace, List.reverse_append, List.append_assoc]
  · have := hm.starts
    rw [List.countP_append, List.countP_append]
    omega
  · obtain ⟨u, hu, hmore⟩ := hf.append
    obtain ⟨hagrees, hshown⟩ := hall u hu
    obtain ⟨v, v', hv, hreplay, hv'⟩ := hmore.brief hm.brief
    refine ⟨(hm.agrees v v' (hagrees.idle hv) hreplay).idle hv', fun s => ?_⟩
    rcases hm.shown s with hsame | ⟨p, hp, hdead, hx⟩
    · rw [hsame]
      exact (hshown s).imp id fun ⟨event, hin, hx⟩ => ⟨event, hmore.deaths event hin, hx⟩
    · obtain ⟨event, hlast, hending, -⟩ := hagrees.ended p hp hdead
      exact .inr ⟨event, hmore.deaths event (List.mem_of_find?_eq_some hlast), hx.trans hending⟩

theorem Hosted.start (h : Hosted w₀ w) (s : ServicePtr) : Hosted w₀ (serviceStart s w).2 := by
  have hcalls := serviceStart_calls s w
  refine h.move (h.inv.serviceStart s) (fun c hc => ?_) fun hwell => ?_
  · rw [hcalls]
    exact List.mem_cons_of_mem _ hc
  · have hin : (⟨.start, s, w.service s, w.embla, (serviceStart s w).1⟩ : CallRecord) ∈
        (serviceStart s w).2.calls := by
      rw [hcalls]
      exact List.mem_cons_self
    obtain ⟨hfresh, hback⟩ := hwell _ hin rfl
    exact serviceStart_moves h.inv s hfresh hback

theorem Hosted.reap (h : Hosted w₀ w) (s : ServicePtr) : Hosted w₀ (serviceReap s w).2 :=
  h.move (h.inv.serviceReap s) (fun c hc => by rw [serviceReap_calls]; exact List.mem_cons_of_mem _ hc)
    fun _ => ⟨[], serviceReap_moves h.inv s⟩

theorem Hosted.aged (h : Hosted w₀ w) {host : Host} (haged : w.embla.host.Aged host) :
    Hosted w₀ (w.withEmbla { w.embla with host := host }) :=
  h.move (h.inv.onlyHost ⟨_, rfl⟩) (fun _ hc => hc) fun _ => ⟨[], .aged haged⟩

theorem Hosted.flags (h : Hosted w₀ w) (s : ServicePtr) {f : Service → Service}
    (hkept : ∀ r, (f r).state = r.state ∧ (f r).process = r.process) (hf : ∀ r, (f r).lastEnd = r.lastEnd) :
    Hosted w₀ (w.modifyService s f) :=
  h.move (h.inv.modifyService s hkept) (fun _ hc => hc) fun _ => ⟨[], .flags s hf⟩

theorem rescheduled_lastEnd (now : ℚ) (r : Service) : (r.rescheduled now).lastEnd = r.lastEnd := by
  unfold Service.rescheduled
  split <;> rfl

theorem Hosted.tick (h : Hosted w₀ w) (s : ServicePtr) : Hosted w₀ (serviceTick s w).2 := by
  obtain ⟨r, v, -, hv, hout⟩ := serviceTick_ways s w
  rw [hv]
  cases hout with
  | waiting => exact h.aged ⟨_, _, rfl⟩
  | due =>
    have hcleared := (h.aged ⟨_, _, rfl⟩ : Hosted w₀ (w.withEmbla w.embla.ticked)).flags s
      (f := fun r => serviceSetRestartPending r false) (fun _ => ⟨rfl, rfl⟩) fun _ => rfl
    exact hcleared.start s
  | idle => exact h.reap s
  | stopHonoured => exact (h.reap s).flags s (fun _ => ⟨rfl, rfl⟩) fun _ => rfl
  | noRestart => exact h.reap s
  | restart =>
    rw [serviceScheduleRestart_eq]
    have hticked : Hosted w₀ ((serviceReap s w).2.withEmbla (serviceReap s w).2.embla.ticked) :=
      (h.reap s).aged ⟨_, _, rfl⟩
    exact hticked.flags s (Service.rescheduled_kept _) (rescheduled_lastEnd _)

theorem Hosted.step (h : Hosted w₀ w) (hs : Step w w') : Hosted w₀ w' := by
  cases hs with
  | start s => exact h.start s
  | stop s =>
    refine h.move (h.inv.serviceStop s) (fun c hc => ?_) fun _ => serviceStop_moves h.inv s
    rw [serviceStop_calls]
    exact List.mem_cons_of_mem _ hc
  | kill s =>
    refine h.move (h.inv.serviceKill s) (fun c hc => ?_) fun _ => serviceKill_moves h.inv s
    rw [serviceKill_calls]
    exact List.mem_cons_of_mem _ hc
  | reap s => exact h.reap s
  | tick s => exact h.tick s
  | drain => exact h.move h.inv.drainOneEvent (fun _ hc => hc) fun _ => drainOneEvent_moves h.inv
  | aged _ haged => exact h.aged haged

/-- The service is running, and its process is alive under this pid. -/
def Instance (w : World) (s : ServicePtr) (pid : Int) : Prop :=
  (w.service s).state = .running ∧ ∃ p, (w.service s).process = some p ∧ (w.embla.process p).state ≠ .terminated ∧
    (w.embla.process p).hostId = pid

/-- In every run, with children ending at any time: the children of the host are the live instances of the
running services, each of one service; a running service whose process is dead shows the last death of
its pid, and what a service shows of its last end it was created with or is a death that was reported;
the instances ever started are the children and the deaths; so once every service is stopped no
child is left, not even a zombie, and the deaths are as many as the starts. -/
theorem children_are_instances {t : HostTable} (h₀ : w₀.Fresh) (hrun : Run w₀ w) (hwell : w.WellHosted)
    (hf : HostTable.boot.Follows (newCalls w₀.embla w.embla) t) :
    (∀ pid, t.children pid ≠ none ↔ ∃! s, w.Instance s pid) ∧
    (∀ s p, (w.service s).process = some p → (w.embla.process p).state = .terminated →
      ∃ event, t.lastDeath (w.embla.process p).hostId = some event ∧ w.embla.Shows p event) ∧
    (∀ s, (w.service s).lastEnd = (w₀.service s).lastEnd ∨
      ∃ event ∈ t.deaths, (w.service s).lastEnd = event.status.ending) ∧
    (w.starts : ℕ∞) = {pid | t.children pid ≠ none}.encard + t.deaths.length ∧
    ((∀ s, (w.service s).state = .stopped) → (∀ pid, t.children pid = none) ∧ w.starts = t.deaths.length) := by
  have howned : w.Owned := hrun.invariant (fun _ _ => Owned.step) h₀.owned
  have hhosted : Hosted w₀ w := hrun.invariant (fun _ _ => Hosted.step) h₀.hosted
  obtain ⟨calls, htrace, hstarts, hall⟩ := hhosted.hosted hwell
  rw [newCalls_append _ htrace, List.reverse_reverse] at hf
  obtain ⟨hagrees, hshown⟩ := hall t hf
  have hinstance : ∀ pid, t.children pid ≠ none ↔ ∃ s, w.Instance s pid := by
    intro pid
    rw [hagrees.child pid]
    constructor
    · rintro ⟨p, ⟨hp, hlive⟩, hpid⟩
      obtain ⟨s, hs, hsp⟩ := howned.owner_running hp
      exact ⟨s, hs, p, hsp, hlive, hpid⟩
    · rintro ⟨s, -, p, hsp, hlive, hpid⟩
      exact ⟨p, ⟨(howned.inv.tracked hsp).2, hlive⟩, hpid⟩
  have hunique : ∀ s s' pid, w.Instance s pid → w.Instance s' pid → s = s' := by
    rintro s s' pid ⟨-, p, hp, -, hpid⟩ ⟨-, p', hp', -, hpid'⟩
    obtain rfl := hagrees.pids p p' (howned.inv.tracked hp).2 (howned.inv.tracked hp').2 (hpid.trans hpid'.symm)
    exact howned.inv.apart s s' p hp hp'
  -- what was forked and not waited for is a start that succeeded
  have hcount : (w.starts : ℕ∞) = t.out + t.deaths.length := by
    have hknown : t.out + t.deaths.length + calls.countP HostCall.isCollect = _ := hf.known
    rw [show HostTable.boot.known = 0 from ?_, zero_add, ← hstarts, Nat.cast_add] at hknown
    · exact (WithTop.add_right_cancel (ENat.natCast_ne_top _) hknown).symm
    · unfold HostTable.known HostTable.out HostTable.boot
      simp
  refine ⟨fun pid => ?_, fun s p hp hdead => hagrees.ended p (howned.inv.tracked hp).2 hdead, hshown, hcount,
    fun hstopped => ?_⟩
  · rw [hinstance pid]
    exact ⟨fun ⟨s, hs⟩ => ⟨s, hs, fun s' hs' => hunique s' s pid hs' hs⟩, fun ⟨s, hs, _⟩ => ⟨s, hs⟩⟩
  · have hnone : ∀ pid, t.children pid = none := by
      intro pid
      by_contra hc
      obtain ⟨s, hs, -⟩ := (hinstance pid).1 hc
      rw [hstopped s] at hs
      cases hs
    refine ⟨hnone, ?_⟩
    have hempty : t.out = 0 := by
      unfold HostTable.out
      simp [hnone]
    rw [hempty, zero_add] at hcount
    exact Nat.cast_inj.1 hcount

/-- The service of `firstChildExits` started, its child's end drained, and the service reaped. -/
def startedAndReaped : World := (serviceReap 0 (serviceStart 0 firstChildExits).2.drainOneEvent.2).2

/-- The one child ends after the start and before the poll, and is reaped. -/
theorem children_are_instances_reaped : ∃ t,
    HostTable.boot.Follows (newCalls firstChildExits.embla startedAndReaped.embla) t ∧
      (∀ pid, t.children pid = none) ∧ startedAndReaped.starts = t.deaths.length := by
  have hrun : Run firstChildExits startedAndReaped :=
    (((Runs.refl _).next (.start 0) trivial rfl).next .drain trivial rfl).next (.reap 0) trivial rfl
  have hwell : startedAndReaped.WellHosted := by
    intro c hc hstart
    have hcalls : startedAndReaped.calls = [⟨.reap, 0, _, _, _⟩, ⟨.start, 0, _, firstChildExits.embla, _⟩] := rfl
    rw [hcalls] at hc
    rcases List.mem_cons.1 hc with rfl | hc
    · cases hstart
    · obtain rfl := List.mem_singleton.1 hc
      exact ⟨fun _ _ _ hp => absurd hp List.not_mem_nil, rfl, rfl⟩
  have hstopped : ∀ s, (startedAndReaped.service s).state = .stopped := by
    intro s
    rcases eq_or_ne s 0 with rfl | hne
    · rfl
    · unfold startedAndReaped
      rw [serviceReap_other hne]
      exact (congrArg Service.state (serviceStart_other hne firstChildExits)).trans (firstChildExits_fresh.services s).state
  have hcalls : newCalls firstChildExits.embla startedAndReaped.embla = [.forked 1 0, .reported (exitOf 0 0)] := rfl
  have hrunning : (HostTable.boot.set 1 (some .running)).children 1 = some .running := rfl
  have hends : HostTable.boot.Follows [.forked 1 0, .reported (exitOf 0 0)] _ :=
    .call rfl (.ends (exitOf 0 0).usage hrunning (show WaitStatus.Death (.exited 0) from trivial) (.call rfl (.rest _)))
  rw [← hcalls] at hends
  obtain ⟨-, -, -, -, hnone⟩ := children_are_instances firstChildExits_fresh hrun hwell hends
  exact ⟨_, hends, hnone hstopped⟩

end World

end EmblaOs
