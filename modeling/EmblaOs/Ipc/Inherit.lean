/-
What a spawned program inherits. The child of a fork has the descriptors of its parent, redirects its
standard streams and calls `execve`, which closes what is close-on-exec: the descriptors of pipes,
socket pairs and named sockets that were not cleared, apart from the streams they were configured as.
-/
import EmblaOs.Ipc.Program
import EmblaOs.Process.Closing

namespace EmblaOs

open Lib

/-! ## Where the streams come from -/

section Origin

variable {F : Type} {config : ProcessConfig} {source target fd : Int} {t t' : Descriptors F} {f : F}

/-- After a redirection a descriptor refers to what it did, or it is the target and refers to what the
source did. -/
theorem Redirects.origin (h : Redirects source target t t') (fd : Int) :
    t'.entry fd = t.entry fd ∨ fd = target ∧ source ≠ -1 ∧ t'.fileAt fd = t.fileAt source := by
  by_cases htarget : fd = target
  · subst htarget
    by_cases hset : source = -1
    · exact .inl (h.unset hset)
    · exact .inr ⟨rfl, hset, h.set hset⟩
  · exact .inl (h.others fd htarget)

/-- The three redirections one after the other. -/
theorem redirects_origin {t₀ t₁ t₂ t₃ : Descriptors F} (h₀ : Redirects config.stdinFd 0 t₀ t₁)
    (h₁ : Redirects config.stdoutFd 1 t₁ t₂) (h₂ : Redirects config.stderrFd 2 t₂ t₃) (fd : Int) :
    t₃.entry fd = t₀.entry fd ∨ Standard fd ∧ ∃ g, config.Source g ∧ t₃.fileAt fd = t₀.fileAt g := by
  -- the file of a descriptor after the first redirection, and after the second
  have hfirst : ∀ g, t₁.fileAt g = t₀.fileAt g ∨ config.Source config.stdinFd ∧ t₁.fileAt g = t₀.fileAt config.stdinFd := by
    intro g
    rcases h₀.origin g with heq | ⟨-, hset, hfile⟩
    · exact .inl (fileAt_congr heq)
    · exact .inr ⟨⟨hset, .inl rfl⟩, hfile⟩
  have hsecond : ∀ g, config.Source g → ∃ g', config.Source g' ∧ t₁.fileAt g = t₀.fileAt g' := by
    intro g hg
    rcases hfirst g with heq | ⟨hsource, heq⟩
    · exact ⟨g, hg, heq⟩
    · exact ⟨_, hsource, heq⟩
  have hthird : ∀ g, config.Source g → ∃ g', config.Source g' ∧ t₂.fileAt g = t₀.fileAt g' := by
    intro g hg
    rcases h₁.origin g with heq | ⟨-, hset, hfile⟩
    · rw [fileAt_congr heq]
      exact hsecond g hg
    · rw [hfile]
      exact hsecond _ ⟨hset, .inr (.inl rfl)⟩
  rcases h₂.origin fd with heq₂ | ⟨rfl, hset, hfile⟩
  · rcases h₁.origin fd with heq₁ | ⟨rfl, hset, hfile⟩
    · rcases h₀.origin fd with heq₀ | ⟨rfl, hset, hfile⟩
      · exact .inl (heq₂.trans (heq₁.trans heq₀))
      · refine .inr ⟨.inl rfl, config.stdinFd, ⟨hset, .inl rfl⟩, ?_⟩
        rw [fileAt_congr (heq₂.trans heq₁), hfile]
    · obtain ⟨g, hg, heq⟩ := hsecond config.stdoutFd ⟨hset, .inr (.inl rfl)⟩
      exact .inr ⟨.inr (.inl rfl), g, hg, by rw [fileAt_congr heq₂, hfile, heq]⟩
  · obtain ⟨g, hg, heq⟩ := hthird config.stderrFd ⟨hset, .inr (.inr rfl)⟩
    exact .inr ⟨.inr (.inr rfl), g, hg, by rw [hfile, heq]⟩

/-- What a child has open when it gets to `execve`. -/
theorem executorChildExec_origin {group : Int} {environ : List String} {host : ChildHost} {c : Child F} {x : Execve F}
    (hx : executorChildExec group config environ host c = .ok x) (fd : Int) :
    x.child.descriptors.entry fd = none ∨
      (x.child.descriptors.entry fd = c.descriptors.entry fd ∧ ¬ (config.Source fd ∧ 2 < fd)) ∨
      Standard fd ∧ ∃ g, config.Source g ∧ x.child.descriptors.fileAt fd = c.descriptors.fileAt g := by
  obtain ⟨before, last, hbefore, hstreams, hlast⟩ := executorChildExec_streams hx
  obtain ⟨t₁, t₂, c₃, h₀, h₁, h₂, -, rfl⟩ := childRedirectStreams_ok hstreams
  rw [hbefore.descriptors] at h₀
  have hentry : x.child.descriptors.entry fd =
      if ToClose [] config.sources fd then none else c₃.descriptors.entry fd := by
    rw [hlast.descriptors, childCloseSources_entry]
  by_cases hclose : ToClose [] config.sources fd
  · exact .inl (by rw [hentry, if_pos hclose])
  rw [if_neg hclose] at hentry
  rcases redirects_origin h₀ h₁ h₂ fd with heq | ⟨hstd, g, hg, hfile⟩
  · refine .inr (.inl ⟨hentry.trans heq, fun hsource => hclose ⟨?_, by simp, ?_⟩⟩)
    · exact ProcessConfig.mem_sources.2 hsource.1
    · intro hstd
      have := standard_iff.1 hstd
      omega
  · exact .inr (.inr ⟨hstd, g, hg, (fileAt_congr hentry).trans hfile⟩)

end Origin

namespace Ipc

open Memory

/-! ## Nothing leaks -/

/-- The descriptor table of the process, `file` being what each descriptor refers to. -/
def Kernel.table {F : Type} (file : Nat → F) (k : Kernel) : Descriptors F :=
  ⟨fun fd => if 0 ≤ fd ∧ fd.toNat ∈ k.fds.held then some ⟨file fd.toNat, k.closeOnExec fd.toNat⟩ else none⟩

section Table

variable {F : Type} {file : Nat → F} {k : Kernel} {fd : Int} {f : F}

theorem table_entry (h : (k.table file).entry fd = some ⟨f, false⟩) :
    ∃ n : Nat, fd = n ∧ n ∈ k.fds.held ∧ file n = f ∧ k.closeOnExec n = false := by
  unfold Kernel.table at h
  simp only at h
  split at h
  · rename_i hfd
    obtain ⟨hf, hflag⟩ := Descriptor.mk.inj (Option.some.inj h)
    exact ⟨fd.toNat, by omega, hfd.2, hf, hflag⟩
  · cases h

end Table

/-- In any state that a program reaches through the calls: whatever a program it spawns finds open is a
standard stream on a configured file, or a descriptor of the rest of the parent, or one that was cleared,
and not a source of its streams above them. -/
theorem spawned_inherits {F : Type} {k : Kernel} {others : List Nat} {foreign : List CString} {r : Multiset Block}
    {p : Program} (hk : k.Has others foreign r)
    (h : Runs IpcOp.exec (fun _ _ => True) (Program.start k others foreign) p) (file : Nat → F) (group : Int)
    (config : ProcessConfig) (environ : List String) (host : ChildHost) (x : Execve F)
    (hx : executorChildExec group config environ host ⟨p.kernel.table file, []⟩ = .ok x) (fd : Int) (f : F)
    (hopen : x.child.descriptors.execve.fileAt fd = some f) :
    (Standard fd ∧ ∃ g, config.Source g ∧ (p.kernel.table file).fileAt g = some f) ∨
      ∃ n : Nat, fd = n ∧ file n = f ∧ (n ∈ p.others ∨ n ∈ p.cleared) ∧ ¬ (config.Source fd ∧ 2 < fd) := by
  have hinv : p.Inv r := h.holds (fun _ _ _ hp _ hx => IpcOp.exec_inv hx hp) (Program.start_inv hk)
  have hentry := Descriptors.execve_fileAt.1 hopen
  rcases executorChildExec_origin hx fd with hnone | ⟨heq, hsource⟩ | ⟨hstd, g, hg, hfile⟩
  · rw [hnone] at hentry
    cases hentry
  · rw [heq] at hentry
    obtain ⟨n, rfl, hheld, hf, hflag⟩ := table_entry hentry
    refine .inr ⟨n, rfl, hf, ?_, hsource⟩
    obtain ⟨m, hm⟩ := hinv.has.fds
    rcases Multiset.mem_add.1 (hm.mem_iff.1 hheld) with hown | hother
    · -- one of the calls' own descriptors is only left open when it was cleared
      by_contra hno
      have hmark := hinv.marked n hown fun hc => hno (.inr hc)
      rw [hmark] at hflag
      cases hflag
    · exact .inl (Multiset.mem_coe.1 hother)
  · refine .inl ⟨hstd, g, hg, ?_⟩
    rw [← hfile]
    unfold Descriptors.fileAt
    rw [hentry]
    rfl

/-- A child that writes into a pipe of its parent, which is on descriptors 3 and 4. -/
theorem spawned_inherits_pipe :
    ∃ (p : Program) (x : Execve Nat), executorChildExec 0 pipedOutput [] obligingHost ⟨p.kernel.table id, []⟩ = .ok x ∧
      x.child.descriptors.execve.fileAt 1 = some 4 ∧
      ((Standard 1 ∧ ∃ g, pipedOutput.Source g ∧ (p.kernel.table id).fileAt g = some 4) ∨
        ∃ n : Nat, (1 : Int) = n ∧ id n = 4 ∧ (n ∈ p.others ∨ n ∈ p.cleared) ∧
          ¬ (pipedOutput.Source 1 ∧ (2 : Int) < 1)) :=
  ⟨_, _, rfl, rfl, spawned_inherits obligingKernel_has ((Runs.refl _).next IpcOp.createPipe trivial rfl) id 0
    pipedOutput [] obligingHost _ rfl 1 4 rfl⟩

end Ipc

end EmblaOs
