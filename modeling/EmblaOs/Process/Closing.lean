/-
What the loop after the redirections closes: each distinct source that is not a standard descriptor,
once, and nothing else. A source met again is found among those before it and passed over, so no close
is made twice and none is missed.
-/
import EmblaOs.Process.Redirection

namespace EmblaOs

open Lib

/-- STDIN_FILENO, STDOUT_FILENO or STDERR_FILENO. -/
def Standard (fd : Int) : Prop := fd = 0 ∨ fd = 1 ∨ fd = 2

instance (fd : Int) : Decidable (Standard fd) := inferInstanceAs (Decidable (fd = 0 ∨ fd = 1 ∨ fd = 2))

theorem standard_iff {fd : Int} : Standard fd ↔ 0 ≤ fd ∧ fd ≤ 2 := by
  unfold Standard
  omega

/-- The loop is to close `fd` when it has `fds` ahead and `seen` behind. -/
def ToClose (seen fds : List Int) (fd : Int) : Prop := fd ∈ fds ∧ fd ∉ seen ∧ ¬ Standard fd

instance (seen fds : List Int) (fd : Int) : Decidable (ToClose seen fds fd) :=
  inferInstanceAs (Decidable (fd ∈ fds ∧ fd ∉ seen ∧ ¬ Standard fd))

/-! ## The loop -/

section Loop

variable {F : Type} {seen rest : List Int} {source fd : Int}

/-- What is to be closed after one round: the source of the round no more. -/
theorem toClose_next : ToClose (seen ++ [source]) rest fd ↔ ToClose seen (source :: rest) fd ∧ fd ≠ source := by
  unfold ToClose
  rw [List.mem_append, List.mem_singleton, List.mem_cons, not_or]
  constructor
  · rintro ⟨hrest, ⟨hseen, hne⟩, hstd⟩
    exact ⟨⟨.inr hrest, hseen, hstd⟩, hne⟩
  · rintro ⟨⟨heq | hrest, hseen, hstd⟩, hne⟩
    · exact absurd heq hne
    · exact ⟨hrest, ⟨hseen, hne⟩, hstd⟩

/-- The body of the loop. -/
theorem childCloseSources_cons (seen : List Int) (source : Int) (rest : List Int) (c : Child F) :
    childCloseSources seen (source :: rest) c =
      childCloseSources (seen ++ [source]) rest (if ToClose seen (source :: rest) source then c.close source else c) := by
  show childCloseSources (seen ++ [source]) rest _ = _
  congr 1
  by_cases hstd : source = 0 ∨ source = 1 ∨ source = 2
  · rw [if_pos hstd, if_neg fun hclose => hclose.2.2 hstd]
  · by_cases hseen : source ∈ seen
    · rw [if_neg hstd, if_pos hseen, if_neg fun hclose => hclose.2.1 hseen]
    · rw [if_neg hstd, if_neg hseen, if_pos ⟨List.mem_cons_self, hseen, hstd⟩]

/-- What is seen of `fd` changes in the one round that closes it, if there is one. -/
theorem childCloseSources_seen {β : Type} (fd : Int) (see : Child F → β) (closed : β → β)
    (hself : ∀ c, see (c.close fd) = closed (see c)) (hother : ∀ c source, source ≠ fd → see (c.close source) = see c) :
    ∀ (fds seen : List Int) (c : Child F),
      see (childCloseSources seen fds c) = if ToClose seen fds fd then closed (see c) else see c
  | [], seen, c => by simp [childCloseSources, ToClose]
  | source :: rest, seen, c => by
    rw [childCloseSources_cons, childCloseSources_seen fd see closed hself hother rest]
    by_cases hfd : source = fd
    · subst hfd
      have hdone : ¬ ToClose (seen ++ [source]) rest source := fun h => (toClose_next.1 h).2 rfl
      rw [if_neg hdone]
      split
      · exact hself c
      · rfl
    · have hnext : ToClose (seen ++ [source]) rest fd ↔ ToClose seen (source :: rest) fd :=
        toClose_next.trans (and_iff_left (Ne.symm hfd))
      have hkept : see (if ToClose seen (source :: rest) source then c.close source else c) = see c := by
        split
        · exact hother c source hfd
        · rfl
      simp only [hnext, hkept]

theorem childCloseSources_count (fd : Int) (fds seen : List Int) (c : Child F) :
    (childCloseSources seen fds c).calls.count (.close fd) =
      c.calls.count (.close fd) + if ToClose seen fds fd then 1 else 0 := by
  have hseen := childCloseSources_seen fd (fun c : Child F => c.calls.count (.close fd)) (· + 1) ?_ ?_ fds seen c
  · rw [hseen]
    split <;> rfl
  · intro c
    simp [Child.close, Child.made]
  · intro c source hne
    exact List.count_cons_of_ne fun heq => hne (ChildCall.close.inj heq)

theorem childCloseSources_entry (fd : Int) (fds seen : List Int) (c : Child F) :
    (childCloseSources seen fds c).descriptors.entry fd =
      if ToClose seen fds fd then none else c.descriptors.entry fd := by
  refine childCloseSources_seen fd (fun c => c.descriptors.entry fd) (fun _ => none) ?_ ?_ fds seen c
  · intro c
    exact Function.update_self ..
  · intro c source hne
    exact Descriptors.close_other _ (Ne.symm hne)

end Loop

/-! ## What a child has closed -/

section Closed

variable {F : Type} {config : ProcessConfig} {host : ChildHost} {c c' : Child F}

/-- A configured source. -/
def ProcessConfig.Source (config : ProcessConfig) (fd : Int) : Prop :=
  fd ≠ -1 ∧ (fd = config.stdinFd ∨ fd = config.stdoutFd ∨ fd = config.stderrFd)

theorem ProcessConfig.mem_sources {fd : Int} : fd ∈ config.sources ↔ config.Source fd := by
  unfold ProcessConfig.sources ProcessConfig.Source
  simp [and_comm]

/-- Between two moments of a child each source above 2 was closed once, and the rest was left alone. -/
structure SourcesClosed (config : ProcessConfig) (before after : Child F) : Prop where
  once : ∀ fd, config.Source fd → 2 < fd → after.calls.count (.close fd) = before.calls.count (.close fd) + 1
  standard : ∀ fd, 0 ≤ fd → fd ≤ 2 → after.calls.count (.close fd) = before.calls.count (.close fd)
  others : ∀ fd, ¬ config.Source fd → after.calls.count (.close fd) = before.calls.count (.close fd)
  untouched : ∀ fd, fd ≠ 0 → fd ≠ 1 → fd ≠ 2 → ¬ config.Source fd →
    after.descriptors.entry fd = before.descriptors.entry fd
  closed : ∀ fd, config.Source fd → 2 < fd → after.descriptors.entry fd = none

theorem childRedirectStreams_closed (h : childRedirectStreams host config c = .ok c') : SourcesClosed config c c' := by
  obtain ⟨t₁, t₂, c₃, h₀, h₁, h₂, hcount, rfl⟩ := childRedirectStreams_ok h
  have hclose : ∀ fd, ToClose [] config.sources fd ↔ config.Source fd ∧ ¬ Standard fd := by
    intro fd
    unfold ToClose
    rw [ProcessConfig.mem_sources]
    simp
  refine ⟨fun fd hsource hgt => ?_, fun fd hlo hhi => ?_, fun fd hno => ?_, fun fd h0 h1 h2 hno => ?_,
    fun fd hsource hgt => ?_⟩
  · have hstd : ¬ Standard fd := fun hstd => by have := standard_iff.1 hstd; omega
    rw [childCloseSources_count, if_pos ((hclose fd).2 ⟨hsource, hstd⟩), hcount]
  · rw [childCloseSources_count, if_neg fun hc => ((hclose fd).1 hc).2 (standard_iff.2 ⟨hlo, hhi⟩), hcount]
    rfl
  · rw [childCloseSources_count, if_neg fun hc => hno ((hclose fd).1 hc).1, hcount]
    rfl
  · rw [childCloseSources_entry, if_neg fun hc => hno ((hclose fd).1 hc).1, h₂.others fd h2, h₁.others fd h1,
      h₀.others fd h0]
  · have hstd : ¬ Standard fd := fun hstd => by have := standard_iff.1 hstd; omega
    rw [childCloseSources_entry, if_pos ((hclose fd).2 ⟨hsource, hstd⟩)]

theorem SourcesClosed.of_undisturbed {c₁ c₂ : Child F} (h : SourcesClosed config c₁ c₂) (hbefore : Undisturbed c c₁)
    (hafter : Undisturbed c₂ c') : SourcesClosed config c c' where
  once fd hsource hgt := by rw [hafter.closes, h.once fd hsource hgt, hbefore.closes]
  standard fd hlo hhi := by rw [hafter.closes, h.standard fd hlo hhi, hbefore.closes]
  others fd hno := by rw [hafter.closes, h.others fd hno, hbefore.closes]
  untouched fd h0 h1 h2 hno := by rw [hafter.descriptors, h.untouched fd h0 h1 h2 hno, hbefore.descriptors]
  closed fd hsource hgt := by rw [hafter.descriptors, h.closed fd hsource hgt]

/-- A redirection whose source is open goes through, and what was open stays open. -/
theorem childRedirect_goes (hdup : ∀ fd, host.dup2 fd = true) {source : Int} (target code : Int) (fds : List Int)
    (hopen : source ≠ -1 → c.descriptors.entry source ≠ none) :
    ∃ c' fds', childRedirect host source target code c fds = .ok (c', fds') ∧
      ∀ fd, c.descriptors.entry fd ≠ none → c'.descriptors.entry fd ≠ none := by
  unfold childRedirect
  by_cases hunset : source = -1
  · rw [if_neg (not_not.2 hunset)]
    exact ⟨c, fds, rfl, fun _ h => h⟩
  · obtain ⟨d, hd⟩ := Option.ne_none_iff_exists'.1 (hopen hunset)
    rw [if_pos hunset]
    unfold Child.dup2 Descriptors.dup2
    simp only [hdup, if_true, hd, Option.map_some]
    refine ⟨_, _, rfl, fun fd hfd => ?_⟩
    show (if source = target then c.descriptors else _).entry fd ≠ none
    split
    · exact hfd
    · show Function.update c.descriptors.entry target _ fd ≠ none
      rw [Function.update_apply]
      split
      · simp
      · exact hfd

/-- With open sources and a host that grants every `dup2` the child gets through its redirections. -/
theorem childRedirectStreams_goes (hdup : ∀ fd, host.dup2 fd = true) (hopen : SourcesOpen config c.descriptors) :
    ∃ c', childRedirectStreams host config c = .ok c' := by
  obtain ⟨c₁, fds₁, h₁, hkeep₁⟩ := childRedirect_goes hdup 0 121 []
    fun hne => (hopen config.stdinFd (.inl rfl) hne).2
  obtain ⟨c₂, fds₂, h₂, hkeep₂⟩ := childRedirect_goes hdup 1 122 fds₁
    fun hne => hkeep₁ _ (hopen config.stdoutFd (.inr (.inl rfl)) hne).2
  obtain ⟨c₃, fds₃, h₃, -⟩ := childRedirect_goes hdup 2 123 fds₂
    fun hne => hkeep₂ _ (hkeep₁ _ (hopen config.stderrFd (.inr (.inr rfl)) hne).2)
  refine ⟨childCloseSources [] fds₃ c₃, ?_⟩
  unfold childRedirectStreams
  simp only [h₁, h₂, h₃, bind, Except.bind, pure, Except.pure]

end Closed

/-- A child that is past its redirections, and so one that gets to `execve`, has closed each of its
sources above 2 once and touched no other descriptor; and open sources are redirected. -/
theorem executorChildExec_closes_sources {F : Type} (config : ProcessConfig) (host : ChildHost) (c : Child F) :
    (∀ c', childRedirectStreams host config c = .ok c' → SourcesClosed config c c') ∧
      (∀ group environ x, executorChildExec group config environ host c = .ok x → SourcesClosed config c x.child) ∧
      ((∀ fd, host.dup2 fd = true) → SourcesOpen config c.descriptors →
        ∃ c', childRedirectStreams host config c = .ok c') := by
  refine ⟨fun c' => childRedirectStreams_closed, fun group environ x hx => ?_, childRedirectStreams_goes⟩
  obtain ⟨before, after, hbefore, hstreams, hafter⟩ := executorChildExec_streams hx
  exact (childRedirectStreams_closed hstreams).of_undisturbed hbefore hafter

/-- Two streams on one pipe: the pipe is closed once. -/
theorem executorChildExec_closes_pipedOutput :
    ∃ x, executorChildExec 0 pipedOutput [] obligingHost pipedChild = .ok x ∧
      x.child.calls.count (.close 4) = 1 ∧ SourcesClosed pipedOutput pipedChild x.child :=
  ⟨_, rfl, by decide, (executorChildExec_closes_sources pipedOutput obligingHost pipedChild).2.1 0 [] _ rfl⟩

end EmblaOs
