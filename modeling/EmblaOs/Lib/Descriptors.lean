/-
The descriptor table of a POSIX process: which open file each descriptor refers to, and whether it
survives `execve`. `dup2` makes one descriptor refer to the file of another and clears its
close-on-exec flag, but does nothing at all when the two are the same.
-/
import Mathlib.Logic.Function.Basic

namespace Lib

structure Descriptor (F : Type) where
  file : F
  closeOnExec : Bool
  deriving DecidableEq

structure Descriptors (F : Type) where
  entry : Int → Option (Descriptor F)

namespace Descriptors

variable {F : Type} {t t' : Descriptors F} {old new fd : Int}

def fileAt (t : Descriptors F) (fd : Int) : Option F := (t.entry fd).map Descriptor.file

/-- `dup2(old, new)`, `none` when `old` is not open. -/
def dup2 (old new : Int) (t : Descriptors F) : Option (Descriptors F) :=
  (t.entry old).map fun d =>
    if old = new then t else ⟨Function.update t.entry new (some { d with closeOnExec := false })⟩

def close (fd : Int) (t : Descriptors F) : Descriptors F := ⟨Function.update t.entry fd none⟩

/-- The table of the program that `execve` starts. -/
def execve (t : Descriptors F) : Descriptors F := ⟨fun fd => (t.entry fd).filter fun d => !d.closeOnExec⟩

theorem execve_fileAt {file : F} : t.execve.fileAt fd = some file ↔ t.entry fd = some ⟨file, false⟩ := by
  unfold fileAt execve
  rcases h : t.entry fd with _ | ⟨f, _ | _⟩
  · simp only [h, Option.filter_none, Option.map_none, reduceCtorEq]
  · simp only [h, Option.some.injEq, Descriptor.mk.injEq, and_true]
    exact Option.some_inj
  · simp only [h, Option.some.injEq, Descriptor.mk.injEq, reduceCtorEq, and_false, iff_false]
    exact Option.some_ne_none file |>.symm

theorem dup2_other (h : t.dup2 old new = some t') (hne : fd ≠ new) : t'.entry fd = t.entry fd := by
  obtain ⟨d, -, rfl⟩ := Option.map_eq_some_iff.1 h
  split
  · rfl
  · exact Function.update_of_ne hne ..

theorem dup2_same (h : t.dup2 old old = some t') : t' = t := by
  obtain ⟨d, -, rfl⟩ := Option.map_eq_some_iff.1 h
  exact if_pos rfl

theorem dup2_fileAt (h : t.dup2 old new = some t') : t'.fileAt new = t.fileAt old := by
  obtain ⟨d, hd, rfl⟩ := Option.map_eq_some_iff.1 h
  unfold fileAt
  split
  · rename_i heq
    rw [heq]
  · simp [hd]

theorem dup2_kept (h : t.dup2 old new = some t') (hne : old ≠ new) :
    ∃ d, t'.entry new = some d ∧ d.closeOnExec = false := by
  obtain ⟨d, -, rfl⟩ := Option.map_eq_some_iff.1 h
  rw [if_neg hne]
  exact ⟨_, Function.update_self .., rfl⟩

theorem close_other (t : Descriptors F) (hne : fd ≠ old) : (t.close old).entry fd = t.entry fd :=
  Function.update_of_ne hne ..

end Descriptors

end Lib
