/-
What the standard streams of a child refer to when it calls `execve`. Each redirection copies what
its source refers to by then, and an earlier one may have changed that; and a stream that is its own
source keeps its close-on-exec flag. The configurations that come out right are the others.
-/
import EmblaOs.Process.Child

namespace EmblaOs

open Lib

/-- An `Except` computation that goes through, taken apart. -/
theorem Except.bind_ok {ε α β : Type} {x : Except ε α} {f : α → Except ε β} {b : β} (h : (x >>= f) = .ok b) :
    ∃ a, x = .ok a ∧ f a = .ok b := by
  cases x with
  | error e => cases h
  | ok a => exact ⟨a, rfl, h⟩

section Steps

variable {F : Type} {host : ChildHost} {config : ProcessConfig} {c c' : Child F}

theorem childStep_ok {answer : Option (Child F)} {code : Int} (h : childStep answer code = .ok c') : answer = some c' := by
  unfold childStep at h
  split at h <;> cases h
  rfl

/-- The descriptors are as they were, and nothing was closed. -/
structure Undisturbed (c c' : Child F) : Prop where
  descriptors : c'.descriptors = c.descriptors
  closes : ∀ fd, c'.calls.count (.close fd) = c.calls.count (.close fd)

theorem Undisturbed.refl (c : Child F) : Undisturbed c c := ⟨rfl, fun _ => rfl⟩

theorem Undisturbed.trans {c₁ c₂ c₃ : Child F} (h : Undisturbed c₁ c₂) (h' : Undisturbed c₂ c₃) : Undisturbed c₁ c₃ :=
  ⟨h'.descriptors.trans h.descriptors, fun fd => (h'.closes fd).trans (h.closes fd)⟩

theorem undisturbed_made (c : Child F) {call : ChildCall} (hcall : ∀ fd, call ≠ .close fd) :
    Undisturbed c (c.made call) :=
  ⟨rfl, fun fd => List.count_cons_of_ne (hcall fd)⟩

theorem childCall_undisturbed {ok : Bool} {call : ChildCall} (hcall : ∀ fd, call ≠ .close fd)
    (h : childCall ok call c = some c') : Undisturbed c c' := by
  unfold childCall at h
  split at h <;> cases h
  exact undisturbed_made c hcall

theorem platformApplyRlimit_undisturbed {resource : Resource} {requested : Nat}
    (h : platformApplyRlimit host resource requested c = some c') : Undisturbed c c' := by
  unfold platformApplyRlimit at h
  split at h
  · cases h
  · split at h <;> cases h
    exact undisturbed_made c (by simp)

theorem platformApplyMemoryLimit_undisturbed {bytes : Nat} (h : platformApplyMemoryLimit host bytes c = some c') :
    Undisturbed c c' := by
  unfold platformApplyMemoryLimit at h
  split at h
  · exact platformApplyRlimit_undisturbed h
  · cases h

theorem childOption_undisturbed {α : Type} {value : Option α} {step : α → Child F → Option (Child F)} {code : Int}
    (hstep : ∀ v c c', step v c = some c' → Undisturbed c c') (h : childOption value step code c = .ok c') :
    Undisturbed c c' := by
  unfold childOption at h
  split at h
  · cases h
    exact .refl c
  · exact hstep _ _ _ (childStep_ok h)

theorem childLimit_undisturbed (h : childLimit host config c = .ok c') : Undisturbed c c' := by
  unfold childLimit at h
  obtain ⟨c₁, h₁, h⟩ := Except.bind_ok h
  obtain ⟨c₂, h₂, h₃⟩ := Except.bind_ok h
  have hmemory : Undisturbed c c₁ := childOption_undisturbed (fun _ _ _ => platformApplyMemoryLimit_undisturbed) h₁
  have hcpu : Undisturbed c₁ c₂ := childOption_undisturbed (fun _ _ _ => platformApplyRlimit_undisturbed) h₂
  have hfd : Undisturbed c₂ c' := childOption_undisturbed (fun _ _ _ => platformApplyRlimit_undisturbed) h₃
  exact (hmemory.trans hcpu).trans hfd

theorem childCredentials_undisturbed (h : childCredentials host config c = .ok c') : Undisturbed c c' := by
  unfold childCredentials at h
  split at h
  · cases h
    exact .refl c
  · obtain ⟨c₁, h₁, h₂⟩ := Except.bind_ok h
    have hgroup : Undisturbed c c₁ := childCall_undisturbed (by simp) (childStep_ok h₁)
    have huser : Undisturbed c₁ c' := childCall_undisturbed (by simp) (childStep_ok h₂)
    exact hgroup.trans huser

theorem childUmask_undisturbed (config : ProcessConfig) (c : Child F) : Undisturbed c (childUmask config c) := by
  unfold childUmask
  split
  · exact .refl c
  · exact undisturbed_made c (by simp)

/-- Only the redirections and the loop after them touch the descriptors. -/
theorem executorChildExec_streams {group : Int} {environ : List String} {x : Execve F}
    (h : executorChildExec group config environ host c = .ok x) :
    ∃ before after : Child F, Undisturbed c before ∧ childRedirectStreams host config before = .ok after ∧
      Undisturbed after x.child := by
  unfold executorChildExec at h
  obtain ⟨c₁, h₁, h⟩ := Except.bind_ok h
  obtain ⟨c₂, h₂, h⟩ := Except.bind_ok h
  obtain ⟨c₃, h₃, h⟩ := Except.bind_ok h
  obtain ⟨c₄, h₄, h⟩ := Except.bind_ok h
  obtain ⟨c₅, h₅, h⟩ := Except.bind_ok h
  cases h
  have hfirst : Undisturbed c c₁ := childCall_undisturbed (by simp) (childStep_ok h₁)
  have hsecond : Undisturbed c₁ c₂ := childOption_undisturbed (fun _ _ _ => childCall_undisturbed (by simp)) h₂
  exact ⟨childUmask config c₂, c₃, (hfirst.trans hsecond).trans (childUmask_undisturbed config c₂), h₃,
    (childLimit_undisturbed h₄).trans (childCredentials_undisturbed h₅)⟩

/-! ## The redirections -/

/-- What a redirection to `target` does to the table. -/
structure Redirects (source target : Int) (t t' : Descriptors F) : Prop where
  others : ∀ fd, fd ≠ target → t'.entry fd = t.entry fd
  unset : source = -1 → t'.entry target = t.entry target
  set : source ≠ -1 → t'.fileAt target = t.fileAt source
  kept : source ≠ -1 → source ≠ target → ∃ d, t'.entry target = some d ∧ d.closeOnExec = false
  self : source = target → t'.entry target = t.entry target

theorem childRedirect_ok {source target code : Int} {fds fds' : List Int}
    (h : childRedirect host source target code c fds = .ok (c', fds')) :
    Redirects source target c.descriptors c'.descriptors := by
  unfold childRedirect at h
  split at h
  · rename_i hset
    split at h
    · cases h
    · rename_i c₁ hdup
      cases h
      unfold Child.dup2 at hdup
      split at hdup
      swap
      · cases hdup
      obtain ⟨t, ht, rfl⟩ := Option.map_eq_some_iff.1 hdup
      refine ⟨fun fd hne => Descriptors.dup2_other ht hne, fun hc => absurd hc hset, fun _ => Descriptors.dup2_fileAt ht,
        fun _ hne => Descriptors.dup2_kept ht hne, ?_⟩
      rintro rfl
      exact congrArg (fun t => t.entry source) (Descriptors.dup2_same ht)
  · rename_i hunset
    cases h
    exact ⟨fun _ _ => rfl, fun _ => rfl, fun hc => absurd hc hunset, fun hc => absurd hc hunset, fun _ => rfl⟩

/-- The loop closes no standard descriptor. -/
theorem childCloseSources_standard {fd : Int} (hfd : fd = 0 ∨ fd = 1 ∨ fd = 2) :
    ∀ (seen fds : List Int) (c : Child F),
      (childCloseSources seen fds c).descriptors.entry fd = c.descriptors.entry fd
  | _, [], _ => rfl
  | seen, source :: rest, c => by
    unfold childCloseSources
    rw [childCloseSources_standard hfd]
    split
    · rfl
    · rename_i hno
      split
      · rfl
      · refine Descriptors.close_other _ ?_
        rintro rfl
        exact hno hfd

/-- A redirection closes nothing and notes its source. -/
theorem childRedirect_noted {source target code : Int} {fds fds' : List Int}
    (h : childRedirect host source target code c fds = .ok (c', fds')) :
    fds' = fds ++ [source].filter (· ≠ -1) ∧ ∀ fd, c'.calls.count (.close fd) = c.calls.count (.close fd) := by
  unfold childRedirect at h
  split at h
  · rename_i hset
    split at h
    · cases h
    · rename_i c₁ hdup
      cases h
      unfold Child.dup2 at hdup
      split at hdup
      swap
      · cases hdup
      obtain ⟨t, -, rfl⟩ := Option.map_eq_some_iff.1 hdup
      exact ⟨by simp [hset], fun fd => (undisturbed_made c (by simp)).closes fd⟩
  · rename_i hunset
    cases h
    exact ⟨by simp [not_not.1 hunset], fun _ => rfl⟩

/-- `redirect_fds` before the loop. -/
def ProcessConfig.sources (config : ProcessConfig) : List Int :=
  [config.stdinFd, config.stdoutFd, config.stderrFd].filter (· ≠ -1)

theorem childRedirectStreams_ok (h : childRedirectStreams host config c = .ok c') :
    ∃ t₁ t₂ c₃, Redirects config.stdinFd 0 c.descriptors t₁ ∧ Redirects config.stdoutFd 1 t₁ t₂ ∧
      Redirects config.stderrFd 2 t₂ c₃.descriptors ∧
      (∀ fd, c₃.calls.count (.close fd) = c.calls.count (.close fd)) ∧ c' = childCloseSources [] config.sources c₃ := by
  unfold childRedirectStreams at h
  obtain ⟨⟨c₁, fds₁⟩, h₁, h⟩ := Except.bind_ok h
  obtain ⟨⟨c₂, fds₂⟩, h₂, h⟩ := Except.bind_ok h
  obtain ⟨⟨c₃, fds₃⟩, h₃, h⟩ := Except.bind_ok h
  cases h
  obtain ⟨rfl, hq₁⟩ := childRedirect_noted h₁
  obtain ⟨rfl, hq₂⟩ := childRedirect_noted h₂
  obtain ⟨rfl, hq₃⟩ := childRedirect_noted h₃
  refine ⟨_, _, c₃, childRedirect_ok h₁, childRedirect_ok h₂, childRedirect_ok h₃,
    fun fd => ((hq₃ fd).trans (hq₂ fd)).trans (hq₁ fd), ?_⟩
  unfold ProcessConfig.sources
  rw [List.nil_append, ← List.filter_append, ← List.filter_append]
  rfl

end Steps

/-! ## What comes out -/

section Streams

variable {F : Type}

/-- The stream `target` is as configured: on the file its source referred to at first and open after
`execve`, or, without a source, where it was. -/
def StreamRedirected (source target : Int) (before after : Descriptors F) : Prop :=
  if source = -1 then after.fileAt target = before.fileAt target
  else after.fileAt target = before.fileAt source ∧ ∃ d, after.entry target = some d ∧ d.closeOnExec = false

def Redirected (config : ProcessConfig) (before after : Descriptors F) : Prop :=
  StreamRedirected config.stdinFd 0 before after ∧ StreamRedirected config.stdoutFd 1 before after ∧
    StreamRedirected config.stderrFd 2 before after

/-- `fd` stays open over `execve`. -/
def Kept (t : Descriptors F) (fd : Int) : Prop := ∀ d, t.entry fd = some d → d.closeOnExec = false

/-- No source of a later stream is a standard descriptor that an earlier redirection changes, and no
stream that is its own source is close-on-exec. -/
structure Unaliased (config : ProcessConfig) (t : Descriptors F) : Prop where
  stdin : config.stdinFd ≠ -1 → config.stdoutFd = 0 ∨ config.stderrFd = 0 → t.fileAt config.stdinFd = t.fileAt 0
  stdout : config.stdoutFd ≠ -1 → config.stderrFd = 1 → t.fileAt config.stdoutFd = t.fileAt 1
  keeps : ∀ target, (config.stdinFd = target ∧ target = 0) ∨ (config.stdoutFd = target ∧ target = 1) ∨
    (config.stderrFd = target ∧ target = 2) → Kept t target

/-- The configured descriptors are open. -/
def SourcesOpen (config : ProcessConfig) (t : Descriptors F) : Prop :=
  ∀ fd, fd = config.stdinFd ∨ fd = config.stdoutFd ∨ fd = config.stderrFd → fd ≠ -1 → 0 ≤ fd ∧ t.entry fd ≠ none

variable {config : ProcessConfig} {source target : Int} {t₀ t t' after : Descriptors F}

theorem fileAt_congr {fd : Int} (h : t'.entry fd = t.entry fd) : t'.fileAt fd = t.fileAt fd := by
  unfold Descriptors.fileAt
  rw [h]

/-- One stream comes out right exactly when its source still is what it was and it is not a
close-on-exec descriptor that was left alone. -/
theorem Redirects.stream_iff (h : Redirects source target t t') (htarget : t.entry target = t₀.entry target)
    (hafter : after.entry target = t'.entry target) (hopen : source ≠ -1 → t₀.entry source ≠ none) :
    StreamRedirected source target t₀ after ↔
      (source ≠ -1 → t.fileAt source = t₀.fileAt source) ∧ (source ≠ -1 → source = target → Kept t₀ target) := by
  unfold StreamRedirected
  rw [fileAt_congr hafter, hafter]
  by_cases hunset : source = -1
  · rw [if_pos hunset]
    refine iff_of_true ?_ ⟨fun hc => absurd hunset hc, fun hc => absurd hunset hc⟩
    exact fileAt_congr ((h.unset hunset).trans htarget)
  rw [if_neg hunset, h.set hunset]
  simp only [ne_eq, hunset, not_false_eq_true, true_implies]
  refine and_congr_right fun _ => ?_
  by_cases hself : source = target
  · simp only [hself, true_implies]
    rw [h.self hself, htarget]
    unfold Kept
    obtain ⟨d, hd⟩ := Option.ne_none_iff_exists'.1 (hopen hunset)
    rw [hself] at hd
    rw [hd]
    simp only [Option.some.injEq, exists_eq_left', forall_eq']
  · simp only [hself, false_implies, iff_true]
    exact h.kept hunset hself

/-- A redirection leaves the file of a descriptor alone unless it is the target and gets another one. -/
theorem Redirects.fileAt_iff (h : Redirects source target t t') (fd : Int) :
    t'.fileAt fd = t.fileAt fd ↔ (source ≠ -1 → fd = target → t.fileAt source = t.fileAt target) := by
  by_cases htarget : fd = target
  · subst htarget
    by_cases hset : source = -1
    · exact iff_of_true (fileAt_congr (h.unset hset)) fun hc => absurd hset hc
    · rw [h.set hset]
      exact ⟨fun heq _ _ => heq, fun heq => heq hset rfl⟩
  · exact iff_of_true (fileAt_congr (h.others fd htarget)) fun _ hc => absurd hc htarget

section Sources

variable {t₁ t₂ : Descriptors F} (h₀ : Redirects config.stdinFd 0 t t₁) (h₁ : Redirects config.stdoutFd 1 t₁ t₂)
include h₀ h₁

/-- The source of the standard error is what it was, when the one of the standard output was. -/
theorem stderr_source_iff (hstdout : config.stdoutFd ≠ -1 → t₁.fileAt config.stdoutFd = t.fileAt config.stdoutFd) :
    (config.stderrFd ≠ -1 → t₂.fileAt config.stderrFd = t.fileAt config.stderrFd) ↔
      (config.stdinFd ≠ -1 → config.stderrFd = 0 → t.fileAt config.stdinFd = t.fileAt 0) ∧
        (config.stdoutFd ≠ -1 → config.stderrFd = 1 → t.fileAt config.stdoutFd = t.fileAt 1) := by
  have hone : t₁.fileAt 1 = t.fileAt 1 := fileAt_congr (h₀.others 1 (by decide))
  by_cases h : config.stderrFd = 1
  · have hfirst : t₁.fileAt config.stderrFd = t.fileAt config.stderrFd := by rw [h, hone]
    rw [← hfirst, h₁.fileAt_iff, h, hone]
    constructor
    · intro heq
      exact ⟨fun _ hc => absurd hc (by decide), fun hset _ => (hstdout hset).symm.trans (heq (by decide) hset rfl)⟩
    · rintro ⟨-, heq⟩ - hset -
      rw [hstdout hset, heq hset rfl]
  · have hsecond : t₂.fileAt config.stderrFd = t₁.fileAt config.stderrFd := fileAt_congr (h₁.others _ h)
    rw [hsecond, h₀.fileAt_iff]
    constructor
    · intro heq
      exact ⟨fun hset hc => heq (by rw [hc]; decide) hset hc, fun _ hc => absurd hc h⟩
    · rintro ⟨heq, -⟩ - hset hc
      exact heq hset hc

end Sources

theorem unaliased_iff : Unaliased config t ↔
    (config.stdinFd ≠ -1 → config.stdinFd = 0 → Kept t 0) ∧
      ((config.stdoutFd ≠ -1 → config.stdinFd ≠ -1 → config.stdoutFd = 0 → t.fileAt config.stdinFd = t.fileAt 0) ∧
        (config.stdoutFd ≠ -1 → config.stdoutFd = 1 → Kept t 1)) ∧
      ((config.stdinFd ≠ -1 → config.stderrFd = 0 → t.fileAt config.stdinFd = t.fileAt 0) ∧
        (config.stdoutFd ≠ -1 → config.stderrFd = 1 → t.fileAt config.stdoutFd = t.fileAt 1)) ∧
      (config.stderrFd ≠ -1 → config.stderrFd = 2 → Kept t 2) := by
  constructor
  · intro h
    refine ⟨?_, ⟨?_, ?_⟩, ⟨?_, h.stdout⟩, ?_⟩
    · exact fun _ hc => h.keeps 0 (Or.inl ⟨hc, rfl⟩)
    · exact fun _ hset hc => h.stdin hset (Or.inl hc)
    · exact fun _ hc => h.keeps 1 (Or.inr (Or.inl ⟨hc, rfl⟩))
    · exact fun hset hc => h.stdin hset (Or.inr hc)
    · exact fun _ hc => h.keeps 2 (Or.inr (Or.inr ⟨hc, rfl⟩))
  · rintro ⟨hk₀, ⟨hf₁, hk₁⟩, ⟨hf₂, hf₃⟩, hk₂⟩
    refine ⟨?_, hf₃, ?_⟩
    · rintro hset (hc | hc)
      · exact hf₁ (by rw [hc]; decide) hset hc
      · exact hf₂ hset hc
    · rintro target (⟨hc, rfl⟩ | ⟨hc, rfl⟩ | ⟨hc, rfl⟩)
      · exact hk₀ (by rw [hc]; decide) hc
      · exact hk₁ (by rw [hc]; decide) hc
      · exact hk₂ (by rw [hc]; decide) hc

/-- A child that gets to `execve` has its streams as configured exactly when no source was overwritten
before its turn and none was left close-on-exec. -/
theorem executorChildExec_redirected_iff (group : Int) (config : ProcessConfig) (environ : List String) (host : ChildHost)
    (c : Child F) (x : Execve F) (hopen : SourcesOpen config c.descriptors)
    (hx : executorChildExec group config environ host c = .ok x) :
    Redirected config c.descriptors x.child.descriptors ↔ Unaliased config c.descriptors := by
  obtain ⟨before, last, hbefore, hstreams, hlast⟩ := executorChildExec_streams hx
  obtain ⟨t₁, t₂, c₃, h₀, h₁, h₂, -, rfl⟩ := childRedirectStreams_ok hstreams
  rw [hbefore.descriptors] at h₀
  have hloop : ∀ fd, fd = 0 ∨ fd = 1 ∨ fd = 2 → x.child.descriptors.entry fd = c₃.descriptors.entry fd := fun fd hfd => by
    rw [hlast.descriptors, childCloseSources_standard hfd]
  -- what each redirection finds on its own target and leaves there
  have hzero : x.child.descriptors.entry 0 = t₁.entry 0 := by
    rw [hloop 0 (Or.inl rfl), h₂.others 0 (by decide), h₁.others 0 (by decide)]
  have hone : x.child.descriptors.entry 1 = t₂.entry 1 := by
    rw [hloop 1 (Or.inr (Or.inl rfl)), h₂.others 1 (by decide)]
  have htwo : x.child.descriptors.entry 2 = c₃.descriptors.entry 2 := hloop 2 (Or.inr (Or.inr rfl))
  have hat : t₁.entry 1 = c.descriptors.entry 1 := h₀.others 1 (by decide)
  have hat' : t₂.entry 2 = c.descriptors.entry 2 := (h₁.others 2 (by decide)).trans (h₀.others 2 (by decide))
  unfold Redirected
  rw [h₀.stream_iff rfl hzero fun hne => (hopen _ (Or.inl rfl) hne).2,
    h₁.stream_iff hat hone fun hne => (hopen _ (Or.inr (Or.inl rfl)) hne).2,
    h₂.stream_iff hat' htwo fun hne => (hopen _ (Or.inr (Or.inr rfl)) hne).2, unaliased_iff, ← h₀.fileAt_iff config.stdoutFd]
  constructor
  · rintro ⟨⟨-, hk₀⟩, ⟨hf₁, hk₁⟩, hf₂, hk₂⟩
    exact ⟨hk₀, ⟨hf₁, hk₁⟩, (stderr_source_iff h₀ h₁ hf₁).1 hf₂, hk₂⟩
  · rintro ⟨hk₀, ⟨hf₁, hk₁⟩, hf₂, hk₂⟩
    exact ⟨⟨fun _ => rfl, hk₀⟩, ⟨hf₁, hk₁⟩, (stderr_source_iff h₀ h₁ hf₁).2 hf₂, hk₂⟩

end Streams

/-- A host that grants everything. -/
def obligingHost : ChildHost :=
  ⟨.linux, true, fun _ => true, fun _ => true, fun _ => some none, fun _ _ => true, fun _ => true, fun _ => true⟩

/-- A child with the three standard streams and a close-on-exec pipe on 4, each descriptor on a file
of its own. -/
def pipedChild : Child Nat :=
  ⟨⟨fun fd => if fd = 0 ∨ fd = 1 ∨ fd = 2 then some ⟨fd.toNat, false⟩ else if fd = 4 then some ⟨4, true⟩ else none⟩, []⟩

/-- Standard output and standard error on the pipe. -/
def pipedOutput : ProcessConfig :=
  (processConfigSetStderrFd (processConfigSetStdoutFd (processConfigCreate "/bin/sh" ["sh"]) 4).2 4).2

/-- Standard output where the standard error was and the other way round. -/
def swappedOutput : ProcessConfig :=
  (processConfigSetStderrFd (processConfigSetStdoutFd (processConfigCreate "/bin/sh" ["sh"]) 2).2 1).2

theorem executorChildExec_redirected_pipedOutput :
    ∃ x, executorChildExec 0 pipedOutput [] obligingHost pipedChild = .ok x ∧
      Redirected pipedOutput pipedChild.descriptors x.child.descriptors := by
  have hopen : SourcesOpen pipedOutput pipedChild.descriptors := by
    rintro fd (rfl | rfl | rfl) hset
    · exact absurd rfl hset
    · decide
    · decide
  refine ⟨_, rfl, (executorChildExec_redirected_iff 0 pipedOutput [] obligingHost pipedChild _ hopen rfl).2 ?_⟩
  refine ⟨fun hset => absurd rfl hset, fun _ hc => absurd hc (by decide), ?_⟩
  rintro target (⟨hc, rfl⟩ | ⟨hc, rfl⟩ | ⟨hc, rfl⟩)
  all_goals exact absurd hc (by decide)

/-- The standard error ends up on its own file: by its turn descriptor 1 refers to that file. -/
theorem executorChildExec_swappedOutput :
    ¬ ∀ (group : Int) (config : ProcessConfig) (environ : List String) (host : ChildHost) (c : Child Nat) (x : Execve Nat),
      SourcesOpen config c.descriptors → executorChildExec group config environ host c = .ok x →
        Redirected config c.descriptors x.child.descriptors := by
  intro h
  have hopen : SourcesOpen swappedOutput pipedChild.descriptors := by
    rintro fd (rfl | rfl | rfl) hset
    · exact absurd rfl hset
    · decide
    · decide
  obtain ⟨-, -, hstderr⟩ := h 0 swappedOutput [] obligingHost pipedChild _ hopen rfl
  unfold StreamRedirected at hstderr
  rw [if_neg (by decide)] at hstderr
  exact absurd hstderr.1 (by decide)

end EmblaOs
