/-
What the exit code of a child says. The child takes the steps of its configuration in one fixed order
and leaves at the first that fails, with the code of that step; a child that gets to `execve` has taken
all of them, and gave up its privileges last. If that call fails too, it leaves with a code of its own.
-/
import EmblaOs.Process.Closing

namespace EmblaOs

open Lib

/-! ## Plans -/

/-- A step that ends the child with its code when it fails, or one that cannot fail. -/
inductive ChildAct (F : Type)
  | call (code : Int) (run : Child F → Option (Child F))
  | sure (run : Child F → Child F)

section Plan

variable {F : Type} {c c' : Child F} {code : Int} {plan : List (ChildAct F)}

/-- One step after the other up to the first that fails. -/
def runPlan : List (ChildAct F) → Child F → Except Int (Child F)
  | [], c => .ok c
  | .call code run :: rest, c =>
    match run c with
    | none => .error code
    | some c => runPlan rest c
  | .sure run :: rest, c => runPlan rest (run c)

/-- The codes of the steps that may fail. -/
def planCodes : List (ChildAct F) → List Int
  | [] => []
  | .call code _ :: rest => code :: planCodes rest
  | .sure _ :: rest => planCodes rest

theorem planCodes_append : ∀ p q : List (ChildAct F), planCodes (p ++ q) = planCodes p ++ planCodes q
  | [], _ => rfl
  | .call code _ :: rest, q => congrArg (code :: ·) (planCodes_append rest q)
  | .sure _ :: rest, q => planCodes_append rest q

theorem runPlan_append : ∀ (p q : List (ChildAct F)) (c : Child F), runPlan (p ++ q) c = runPlan p c >>= runPlan q
  | [], _, _ => rfl
  | .call code run :: rest, q, c => by
    simp only [List.cons_append, runPlan]
    cases run c with
    | none => rfl
    | some c => exact runPlan_append rest q c
  | .sure run :: rest, q, c => runPlan_append rest q (run c)

/-- A plan that fails has a step that fails where the steps before it have led. -/
theorem runPlan_error_iff : ∀ {plan : List (ChildAct F)} {c : Child F}, runPlan plan c = .error code ↔
    ∃ before run after c', plan = before ++ .call code run :: after ∧ runPlan before c = .ok c' ∧ run c' = none
  | [], c => by
    refine iff_of_false (fun h => by cases h) ?_
    rintro ⟨before, run, after, c', heq, -⟩
    simp at heq
  | act :: rest, c => by
    constructor
    · intro h
      cases act with
      | call code' run =>
        unfold runPlan at h
        rcases hrun : run c with _ | c₁ <;> simp only [hrun] at h
        · cases h
          exact ⟨[], run, rest, c, rfl, rfl, hrun⟩
        · obtain ⟨before, run', after, c', rfl, hbefore, hfail⟩ := runPlan_error_iff.1 h
          refine ⟨.call code' run :: before, run', after, c', rfl, ?_, hfail⟩
          simp only [runPlan, hrun, hbefore]
      | sure run =>
        have hrest : runPlan rest (run c) = .error code := h
        obtain ⟨before, run', after, c', rfl, hbefore, hfail⟩ := runPlan_error_iff.1 hrest
        exact ⟨.sure run :: before, run', after, c', rfl, hbefore, hfail⟩
    · rintro ⟨before, run, after, c', heq, hbefore, hfail⟩
      rw [heq, runPlan_append, hbefore]
      show runPlan (.call code run :: after) c' = .error code
      simp only [runPlan, hfail]

end Plan

/-! ## The plan of a configuration -/

section Child

variable {F : Type}

/-- The step of a setting, if it is set. -/
def optionAct {α : Type} (value : Option α) (code : Int) (step : α → Child F → Option (Child F)) : List (ChildAct F) :=
  value.toList.map fun v => .call code (step v)

def redirectAct (host : ChildHost) (source target code : Int) : List (ChildAct F) :=
  if source ≠ -1 then [.call code fun c => c.dup2 host source target] else []

def streamPlan (host : ChildHost) (config : ProcessConfig) : List (ChildAct F) :=
  redirectAct host config.stdinFd 0 121 ++ (redirectAct host config.stdoutFd 1 122 ++
    (redirectAct host config.stderrFd 2 123 ++ [.sure (childCloseSources [] config.sources)]))

def limitPlan (host : ChildHost) (config : ProcessConfig) : List (ChildAct F) :=
  optionAct config.memoryLimit 128 (platformApplyMemoryLimit host) ++
    (optionAct config.cpuLimit 129 (platformApplyRlimit host .cpu) ++
      optionAct config.fdLimit 130 (platformApplyRlimit host .openFiles))

def credentialPlan (host : ChildHost) (config : ProcessConfig) : List (ChildAct F) :=
  optionAct config.credentials 124 (fun ids => childCall (host.setgid ids.2) (.setgid ids.2)) ++
    optionAct config.credentials 125 (fun ids => childCall (host.setuid ids.1) (.setuid ids.1))

/-- From the process group to the credentials. -/
def childPlan (group : Int) (config : ProcessConfig) (host : ChildHost) : List (ChildAct F) :=
  .call 126 (childCall host.setpgid (.setpgid group)) ::
    (optionAct config.workingDirectory 120 (fun path => childCall (host.chdir path) (.chdir path)) ++
      (config.umask.toList.map (fun mask => .sure fun c => c.made (.umask mask)) ++
        (streamPlan host config ++ (limitPlan host config ++ credentialPlan host config))))

variable {c : Child F} {host : ChildHost} {config : ProcessConfig}

theorem runPlan_optionAct {α : Type} (value : Option α) (code : Int) (step : α → Child F → Option (Child F))
    (c : Child F) : runPlan (optionAct value code step) c = childOption value step code c := by
  cases value with
  | none => rfl
  | some v =>
    show (match step v c with | none => .error code | some c => .ok c) = childStep (step v c) code
    cases step v c <;> rfl

theorem runPlan_redirectAct (host : ChildHost) (source target code : Int) (c : Child F) (fds : List Int) :
    childRedirect host source target code c fds =
      (runPlan (redirectAct host source target code) c).map fun c => (c, fds ++ [source].filter (· ≠ -1)) := by
  unfold childRedirect redirectAct
  by_cases hset : source = -1
  · simp [hset, runPlan, Except.map]
  · simp only [ne_eq, hset, not_false_eq_true, if_true, runPlan, decide_true, List.filter_cons_of_pos]
    cases c.dup2 host source target <;> rfl

theorem runPlan_childUmask (config : ProcessConfig) (c : Child F) :
    runPlan (config.umask.toList.map fun mask => .sure fun c => c.made (.umask mask)) c = .ok (childUmask config c) := by
  unfold childUmask
  cases config.umask <;> rfl

theorem except_map_bind {α β γ : Type} (x : Except Int α) (f : α → β) (g : β → Except Int γ) :
    x.map f >>= g = x >>= fun a => g (f a) := by
  cases x <;> rfl

theorem runPlan_streamPlan (host : ChildHost) (config : ProcessConfig) (c : Child F) :
    runPlan (streamPlan host config) c = childRedirectStreams host config c := by
  unfold childRedirectStreams streamPlan
  rw [runPlan_append, runPlan_redirectAct, except_map_bind]
  refine congrArg _ (funext fun c₁ => ?_)
  dsimp only
  rw [runPlan_append, runPlan_redirectAct, except_map_bind]
  refine congrArg _ (funext fun c₂ => ?_)
  dsimp only
  rw [runPlan_append, runPlan_redirectAct, except_map_bind]
  refine congrArg _ (funext fun c₃ => ?_)
  simp only [runPlan, ProcessConfig.sources, List.nil_append, ← List.filter_append]
  rfl

theorem runPlan_limitPlan (host : ChildHost) (config : ProcessConfig) (c : Child F) :
    runPlan (limitPlan host config) c = childLimit host config c := by
  unfold limitPlan childLimit
  simp only [runPlan_append, runPlan_optionAct]
  refine congrArg _ (funext fun c => ?_)
  rw [runPlan_append]
  simp only [runPlan_optionAct]
  refine congrArg _ (funext fun c => ?_)
  exact runPlan_optionAct _ _ _ _

theorem runPlan_credentialPlan (host : ChildHost) (config : ProcessConfig) (c : Child F) :
    runPlan (credentialPlan host config) c = childCredentials host config c := by
  unfold credentialPlan childCredentials
  rw [runPlan_append, runPlan_optionAct]
  cases config.credentials with
  | none => rfl
  | some ids => exact congrArg _ (funext fun c => runPlan_optionAct (some ids) 125 _ c)

/-- The child runs its plan and then calls `execve`. -/
theorem executorChildExec_eq (group : Int) (config : ProcessConfig) (environ : List String) (host : ChildHost)
    (c : Child F) :
    executorChildExec group config environ host c =
      (runPlan (childPlan group config host) c).map fun c => ⟨config.path, config.argv, config.envp.getD environ, c⟩ := by
  have hmap : ∀ {α β : Type} (x : Except Int α) (f : α → β), (x >>= fun a => pure (f a)) = x.map f := by
    intro α β x f
    cases x <;> rfl
  unfold executorChildExec
  rw [← hmap]
  unfold childPlan runPlan
  cases childCall host.setpgid (.setpgid group) c with
  | none => rfl
  | some c₁ =>
    show (childOption config.workingDirectory _ 120 c₁ >>= _) = (runPlan _ c₁ >>= _)
    rw [runPlan_append, runPlan_optionAct, bind_assoc]
    refine congrArg _ (funext fun c₂ => ?_)
    rw [runPlan_append, runPlan_childUmask]
    show (childRedirectStreams host config (childUmask config c₂) >>= _) =
      (runPlan (streamPlan host config ++ _) (childUmask config c₂) >>= _)
    rw [runPlan_append, runPlan_streamPlan, bind_assoc]
    refine congrArg _ (funext fun c₃ => ?_)
    rw [runPlan_append, runPlan_limitPlan, bind_assoc]
    refine congrArg _ (funext fun c₄ => ?_)
    rw [runPlan_credentialPlan]

/-! ## The codes -/

theorem planCodes_optionAct {α : Type} (value : Option α) (code : Int) (step : α → Child F → Option (Child F)) :
    (planCodes (optionAct value code step)).Sublist [code] := by
  cases value with
  | none => exact List.nil_sublist _
  | some v => exact List.Sublist.refl _

theorem planCodes_redirectAct (host : ChildHost) (source target code : Int) :
    (planCodes (redirectAct (F := F) host source target code)).Sublist [code] := by
  unfold redirectAct
  split
  · exact List.Sublist.refl _
  · exact List.nil_sublist _

theorem planCodes_umask (config : ProcessConfig) :
    planCodes (config.umask.toList.map fun mask => ChildAct.sure fun c : Child F => c.made (.umask mask)) = [] := by
  cases config.umask <;> rfl

theorem planCodes_childPlan (group : Int) (config : ProcessConfig) (host : ChildHost) :
    (planCodes (childPlan (F := F) group config host)).Sublist [126, 120, 121, 122, 123, 128, 129, 130, 124, 125] := by
  unfold childPlan streamPlan limitPlan credentialPlan
  simp only [planCodes, planCodes_append, planCodes_umask, List.nil_append, List.append_assoc]
  have happend : ∀ {p q : List Int} {code : Int} {codes : List Int}, p.Sublist [code] → q.Sublist codes →
      (p ++ q).Sublist (code :: codes) := fun hp hq => hp.append hq
  refine List.Sublist.cons_cons 126 (happend (planCodes_optionAct _ 120 _) ?_)
  refine happend (planCodes_redirectAct host _ 0 121) (happend (planCodes_redirectAct host _ 1 122) ?_)
  refine happend (planCodes_redirectAct host _ 2 123) (happend (planCodes_optionAct _ 128 _) ?_)
  refine happend (planCodes_optionAct _ 129 _) (happend (planCodes_optionAct _ 130 _) ?_)
  exact happend (planCodes_optionAct _ 124 _) (planCodes_optionAct _ 125 _)

/-! ## What is done before `execve` -/

/-- A limit is in force that is neither above the one asked for nor above the hard limit there was, and is
one of the two. -/
def LimitSet (host : ChildHost) (resource : Resource) (requested : Nat) (calls : List ChildCall) : Prop :=
  ∃ hard limit, host.getrlimit resource = some hard ∧ .setrlimit resource limit ∈ calls ∧ limit ≤ requested ∧
    (∀ h, hard = some h → limit ≤ h) ∧ (limit = requested ∨ hard = some limit)

theorem LimitSet.mono {resource : Resource} {requested : Nat} {calls calls' : List ChildCall}
    (h : LimitSet host resource requested calls) (hsub : ∀ call ∈ calls, call ∈ calls') :
    LimitSet host resource requested calls' := by
  obtain ⟨hard, limit, hget, hmem, hle⟩ := h
  exact ⟨hard, limit, hget, hsub _ hmem, hle⟩

theorem effectiveLimit_spec (requested : Nat) (hard : Option Nat) :
    effectiveLimit requested hard ≤ requested ∧ (∀ h, hard = some h → effectiveLimit requested hard ≤ h) ∧
      (effectiveLimit requested hard = requested ∨ hard = some (effectiveLimit requested hard)) := by
  cases hard with
  | none => exact ⟨le_refl _, fun h hc => (by cases hc), .inl rfl⟩
  | some h =>
    unfold effectiveLimit
    simp only [Option.some.injEq]
    split
    · exact ⟨by omega, fun h' heq => by omega, .inr rfl⟩
    · exact ⟨le_refl _, fun h' heq => by omega, .inl rfl⟩

theorem platformApplyRlimit_set {resource : Resource} {requested : Nat} {c' : Child F}
    (h : platformApplyRlimit host resource requested c = some c') :
    LimitSet host resource requested c'.calls ∧ ∀ call ∈ c.calls, call ∈ c'.calls := by
  unfold platformApplyRlimit at h
  cases hget : host.getrlimit resource with
  | none =>
    rw [hget] at h
    cases h
  | some hard =>
    simp only [hget] at h
    split at h
    · cases h
      exact ⟨⟨hard, _, hget, List.mem_cons_self, effectiveLimit_spec requested hard⟩,
        fun call hcall => List.mem_cons_of_mem _ hcall⟩
    · cases h

theorem platformApplyMemoryLimit_set {bytes : Nat} {c' : Child F}
    (h : platformApplyMemoryLimit host bytes c = some c') :
    (host.platform = .linux ∧ LimitSet host .addressSpace bytes c'.calls) ∧ ∀ call ∈ c.calls, call ∈ c'.calls := by
  unfold platformApplyMemoryLimit at h
  cases hplatform : host.platform with
  | darwin =>
    rw [hplatform] at h
    cases h
  | linux =>
    rw [hplatform] at h
    obtain ⟨hset, hsub⟩ := platformApplyRlimit_set h
    exact ⟨⟨rfl, hset⟩, hsub⟩

/-- A step of a setting, when it is over: what it establishes holds if it was set, and no call is lost. -/
theorem childOption_set {α : Type} {value : Option α} {step : α → Child F → Option (Child F)} {code : Int}
    {P : α → List ChildCall → Prop} {c' : Child F}
    (hstep : ∀ {v : α} {c c' : Child F}, step v c = some c' → P v c'.calls ∧ ∀ call ∈ c.calls, call ∈ c'.calls)
    (h : childOption value step code c = .ok c') :
    (∀ v, value = some v → P v c'.calls) ∧ ∀ call ∈ c.calls, call ∈ c'.calls := by
  cases value with
  | none =>
    cases h
    exact ⟨fun v hv => (by cases hv), fun call hcall => hcall⟩
  | some v =>
    obtain ⟨hP, hsub⟩ := hstep (childStep_ok h)
    refine ⟨fun v' hv => ?_, hsub⟩
    obtain rfl := Option.some.inj hv
    exact hP

/-- The three limits that are set are in force. -/
structure LimitsSet (config : ProcessConfig) (host : ChildHost) (calls : List ChildCall) : Prop where
  memory : ∀ bytes, config.memoryLimit = some bytes →
    host.platform = .linux ∧ LimitSet host .addressSpace bytes calls
  cpu : ∀ seconds, config.cpuLimit = some seconds → LimitSet host .cpu seconds calls
  files : ∀ count, config.fdLimit = some count → LimitSet host .openFiles count calls

theorem childLimit_set {c' : Child F} (h : childLimit host config c = .ok c') : LimitsSet config host c'.calls := by
  unfold childLimit at h
  obtain ⟨c₁, h₁, h⟩ := Except.bind_ok h
  obtain ⟨c₂, h₂, h₃⟩ := Except.bind_ok h
  obtain ⟨hmemory, -⟩ := childOption_set (P := fun bytes calls => host.platform = .linux ∧
    LimitSet host .addressSpace bytes calls) (fun hs => platformApplyMemoryLimit_set hs) h₁
  obtain ⟨hcpu, hsub₂⟩ := childOption_set (P := LimitSet host .cpu) (fun hs => platformApplyRlimit_set hs) h₂
  obtain ⟨hfiles, hsub₃⟩ := childOption_set (P := LimitSet host .openFiles) (fun hs => platformApplyRlimit_set hs) h₃
  exact ⟨fun bytes hb => ⟨(hmemory bytes hb).1, ((hmemory bytes hb).2.mono hsub₂).mono hsub₃⟩,
    fun s hs => (hcpu s hs).mono hsub₃, hfiles⟩

/-- The calls that give up the privileges come last, the group before the user. -/
theorem childCredentials_last {c' : Child F} (h : childCredentials host config c = .ok c') :
    c'.calls = (match config.credentials with
      | none => []
      | some (uid, gid) => [.setuid uid, .setgid gid]) ++ c.calls := by
  unfold childCredentials at h
  cases hids : config.credentials with
  | none =>
    rw [hids] at h
    cases h
    rfl
  | some ids =>
    rw [hids] at h
    obtain ⟨c₁, h₁, h₂⟩ := Except.bind_ok h
    have hsetgid := childStep_ok h₁
    have hsetuid := childStep_ok h₂
    unfold childCall at hsetgid hsetuid
    split at hsetgid
    swap
    · cases hsetgid
    split at hsetuid
    swap
    · cases hsetuid
    cases hsetgid
    cases hsetuid
    rfl

end Child

theorem executorChildEnd_error {F : Type} {group : Int} {config : ProcessConfig} {environ : List String} {host : ChildHost}
    {c : Child F} {code : Int} (h : executorChildExec group config environ host c = .error code) (execve : Execve F → Bool) :
    executorChildEnd execve group config environ host c = .exited code := by
  unfold executorChildEnd
  rw [h]

theorem executorChildEnd_ok {F : Type} {group : Int} {config : ProcessConfig} {environ : List String} {host : ChildHost}
    {c : Child F} {x : Execve F} (h : executorChildExec group config environ host c = .ok x) (execve : Execve F → Bool) :
    executorChildEnd execve group config environ host c = if execve x = true then .program x else .exited 127 := by
  unfold executorChildEnd
  rw [h]

/-- The exit code of a child is that of the first step of its plan that fails, no two steps share a code
and none has that of a failed `execve`; a child that calls `execve` has taken every step, its limits are
in force and its privileges were given up after everything else. With that call the program runs, or the
child leaves with 127, which no other child does. -/
theorem executorChildExec_outcome {F : Type} (group : Int) (config : ProcessConfig) (environ : List String)
    (host : ChildHost) (c : Child F) :
    (∀ code, executorChildExec group config environ host c = .error code ↔
      ∃ before run after c', childPlan group config host = before ++ .call code run :: after ∧
        runPlan before c = .ok c' ∧ run c' = none) ∧
    (planCodes (childPlan (F := F) group config host)).Nodup ∧
    127 ∉ planCodes (childPlan (F := F) group config host) ∧
    (∀ x, executorChildExec group config environ host c = .ok x →
      runPlan (childPlan group config host) c = .ok x.child ∧
      ∃ earlier, LimitsSet config host earlier ∧ x.child.calls = (match config.credentials with
        | none => []
        | some (uid, gid) => [.setuid uid, .setgid gid]) ++ earlier) ∧
    ∀ execve : Execve F → Bool,
      (∀ code ≠ 127, executorChildEnd execve group config environ host c = .exited code ↔
        executorChildExec group config environ host c = .error code) ∧
      (executorChildEnd execve group config environ host c = .exited 127 ↔
        ∃ x, executorChildExec group config environ host c = .ok x ∧ execve x = false) ∧
      ∀ x, executorChildEnd execve group config environ host c = .program x ↔
        executorChildExec group config environ host c = .ok x ∧ execve x = true := by
  have hcodes := planCodes_childPlan (F := F) group config host
  have hfirst : ∀ code, executorChildExec group config environ host c = .error code ↔
      ∃ before run after c', childPlan group config host = before ++ .call code run :: after ∧
        runPlan before c = .ok c' ∧ run c' = none := by
    intro code
    rw [← runPlan_error_iff, executorChildExec_eq]
    cases runPlan (childPlan group config host) c <;> simp [Except.map]
  have hfree : 127 ∉ planCodes (childPlan (F := F) group config host) := fun hmem =>
    absurd (hcodes.subset hmem) (by decide)
  have hnever : executorChildExec group config environ host c ≠ .error 127 := by
    -- it would be the code of a step
    intro herror
    obtain ⟨before, run, after, c', hplan, -⟩ := (hfirst 127).1 herror
    refine hfree ?_
    rw [hplan, planCodes_append]
    exact List.mem_append_right _ List.mem_cons_self
  refine ⟨hfirst, hcodes.nodup (by decide), hfree, fun x hx => ⟨?_, ?_⟩, fun execve => ?_⟩
  · rw [executorChildExec_eq] at hx
    cases hplan : runPlan (childPlan group config host) c with
    | error code =>
      rw [hplan] at hx
      cases hx
    | ok c' =>
      rw [hplan] at hx
      cases hx
      rfl
  · unfold executorChildExec at hx
    obtain ⟨c₁, -, hx⟩ := Except.bind_ok hx
    obtain ⟨c₂, -, hx⟩ := Except.bind_ok hx
    obtain ⟨c₃, -, hx⟩ := Except.bind_ok hx
    obtain ⟨c₄, h₄, hx⟩ := Except.bind_ok hx
    obtain ⟨c₅, h₅, hx⟩ := Except.bind_ok hx
    cases hx
    exact ⟨c₄.calls, childLimit_set h₄, childCredentials_last h₅⟩
  · cases hexec : executorChildExec group config environ host c with
    | error code =>
      have hne : code ≠ 127 := fun hc => hnever (by rw [hexec, hc])
      rw [executorChildEnd_error hexec execve]
      simp [hne]
    | ok x =>
      rw [executorChildEnd_ok hexec execve]
      by_cases hok : execve x = true
      · simp [hok]
      · rw [if_neg hok]
        refine ⟨fun code hcode => ?_, ?_, fun x' => ?_⟩
        · exact iff_of_false (fun hc => hcode (ChildEnd.exited.inj hc).symm) fun hc => by cases hc
        · exact iff_of_true rfl ⟨x, rfl, by simpa using hok⟩
        · refine iff_of_false (fun hc => by cases hc) ?_
          rintro ⟨hc, hx'⟩
          cases hc
          exact hok hx'

end EmblaOs
