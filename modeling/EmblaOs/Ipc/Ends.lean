/-
Pipes and socket pairs (pipe.c, socket_pair.c): two descriptors that are made together, marked
close-on-exec before anybody sees them, and closed one by one or together. The two files are the same
but for the call that makes the descriptors.
-/
import EmblaOs.Memory.Config
import EmblaOs.Service.NotifyStream

namespace EmblaOs.Ipc

open Lib Memory

/-! ## The host of the calls -/

/-- The descriptors that are open, the names that sockets are bound to and the memory in use, with what
the other calls answer next. -/
structure Kernel where
  platform : Platform
  fds : Ledger Nat
  closeOnExec : Nat → Bool
  names : Ledger CString
  mem : Mem
  fcntls : Stream' Bool
  binds : Stream' Bool
  listens : Stream' Bool
  connects : Stream' Bool
  /-- how many bytes `sendto` says it sent -/
  sends : Stream' (Option Nat)

namespace Kernel

/-- A new descriptor, not close-on-exec. -/
def openFd (k : Kernel) : Option Nat × Kernel :=
  match k.fds.acquire with
  | (none, fds) => (none, { k with fds := fds })
  | (some fd, fds) => (some fd, { k with fds := fds, closeOnExec := Function.update k.closeOnExec fd false })

/-- Two of them, or none. -/
def openTwo (k : Kernel) : Option (Nat × Nat) × Kernel :=
  match k.fds.acquireTwo with
  | (none, fds) => (none, { k with fds := fds })
  | (some (first, second), fds) => (some (first, second), { k with
      fds := fds
      closeOnExec := Function.update (Function.update k.closeOnExec first false) second false })

def close (fd : Nat) (k : Kernel) : Kernel := { k with fds := k.fds.release fd }

def fcntl (k : Kernel) : Bool × Kernel := (k.fcntls.head, { k with fcntls := k.fcntls.tail })

def malloc (k : Kernel) : Option Block × Kernel := (k.mem.acquire.1, { k with mem := k.mem.acquire.2 })

def free (block : Block) (k : Kernel) : Kernel := { k with mem := k.mem.release block }

end Kernel

/-- The flags are read, then set. -/
def setFlag (value : Bool) (fd : Nat) (k : Kernel) : Int × Kernel :=
  let (flags, k) := k.fcntl
  if flags = false then (-1, k)
  else
    let (set, k) := k.fcntl
    if set then (0, { k with closeOnExec := Function.update k.closeOnExec fd value }) else (-1, k)

def pipeSetFdCloexec : Nat → Kernel → Int × Kernel := setFlag true

def pipeClearFdCloexec : Nat → Kernel → Int × Kernel := setFlag false

def socketPairSetFdCloexec : Nat → Kernel → Int × Kernel := setFlag true

def socketPairClearFdCloexec : Nat → Kernel → Int × Kernel := setFlag false

/-! ## Two ends -/

inductive Side
  | first
  | second
  deriving DecidableEq, Repr

/-- `struct Pipe` and `struct SocketPair` at their address; an end that was closed is `none`. -/
structure Ends where
  block : Block
  first : Option Nat
  second : Option Nat
  deriving DecidableEq

namespace Ends

def fd (side : Side) (p : Ends) : Option Nat :=
  match side with
  | .first => p.first
  | .second => p.second

def shut (side : Side) (p : Ends) : Ends :=
  match side with
  | .first => { p with first := none }
  | .second => { p with second := none }

def fds (p : Ends) : Multiset Nat := (p.first.toList : Multiset Nat) + (p.second.toList : Multiset Nat)

/-- Both ends are marked before the memory is asked for, and closed when anything fails. -/
def create (k : Kernel) : Option Ends × Kernel :=
  match k.openTwo with
  | (none, k) => (none, k)
  | (some (first, second), k) =>
    let (result, k) := setFlag true first k
    if result ≠ 0 then (none, (k.close first).close second)
    else
      let (result, k) := setFlag true second k
      if result ≠ 0 then (none, (k.close first).close second)
      else
        match k.malloc with
        | (none, k) => (none, (k.close first).close second)
        | (some block, k) => (some ⟨block, some first, some second⟩, k)

def closeEnd (side : Side) (p : Ends) (k : Kernel) : Ends × Kernel :=
  match p.fd side with
  | none => (p, k)
  | some fd => (p.shut side, k.close fd)

def clearCloexec (side : Side) (p : Ends) (k : Kernel) : Int × Kernel :=
  match p.fd side with
  | none => (-1, k)
  | some fd => setFlag false fd k

def destroy (p : Ends) (k : Kernel) : Kernel :=
  let (p, k) := p.closeEnd .first k
  let (p, k) := p.closeEnd .second k
  k.free p.block

end Ends

def pipeCreate : Kernel → Option Ends × Kernel := Ends.create

def pipeCloseRead : Ends → Kernel → Ends × Kernel := Ends.closeEnd .first

def pipeCloseWrite : Ends → Kernel → Ends × Kernel := Ends.closeEnd .second

def pipeClearCloexecRead : Ends → Kernel → Int × Kernel := Ends.clearCloexec .first

def pipeClearCloexecWrite : Ends → Kernel → Int × Kernel := Ends.clearCloexec .second

def pipeDestroy : Ends → Kernel → Kernel := Ends.destroy

/-- The type goes into the call of `socketpair` only. -/
def socketPairCreate (_type : Int) : Kernel → Option Ends × Kernel := Ends.create

def socketPairCloseFirst : Ends → Kernel → Ends × Kernel := Ends.closeEnd .first

def socketPairCloseSecond : Ends → Kernel → Ends × Kernel := Ends.closeEnd .second

def socketPairClearCloexecFirst : Ends → Kernel → Int × Kernel := Ends.clearCloexec .first

def socketPairClearCloexecSecond : Ends → Kernel → Int × Kernel := Ends.clearCloexec .second

def socketPairDestroy : Ends → Kernel → Kernel := Ends.destroy

/-! ## What a call does to the host -/

/-- These and no others are open, bound and in use. -/
structure Kernel.Has (k : Kernel) (fds : Multiset Nat) (names : Multiset CString) (blocks : Multiset Block) : Prop where
  fds : ∃ n, k.fds.Holds fds n
  names : ∃ n, k.names.Holds names n
  mem : ∃ n, k.mem.Holds blocks n

/-- The close-on-exec flags of `fds` are as they were. -/
def SameFlags (fds : Multiset Nat) (k k' : Kernel) : Prop := ∀ fd ∈ fds, k'.closeOnExec fd = k.closeOnExec fd

/-- All of `fds` are close-on-exec. -/
def Marked (fds : Multiset Nat) (k : Kernel) : Prop := ∀ fd ∈ fds, k.closeOnExec fd = true

/-- A call that makes something that owns what `fds`, `names` and `blocks` say, marked close-on-exec, or
fails and leaves nothing behind. -/
structure Makes {β : Type} (k : Kernel) (F : Multiset Nat) (N : Multiset CString) (B : Multiset Block)
    (fds : β → Multiset Nat) (names : β → Multiset CString) (blocks : β → Multiset Block) (out : Option β × Kernel) :
    Prop where
  flags : SameFlags F k out.2
  failed : out.1 = none → out.2.Has F N B
  made : ∀ b, out.1 = some b → out.2.Has (fds b + F) (names b + N) (blocks b + B) ∧ Marked (fds b) out.2

section Calls

variable {k k' k'' : Kernel} {F : Multiset Nat} {N : Multiset CString} {B : Multiset Block} {fd : Nat}

theorem SameFlags.refl (F : Multiset Nat) (k : Kernel) : SameFlags F k k := fun _ _ => rfl

theorem SameFlags.trans (h : SameFlags F k k') (h' : SameFlags F k' k'') : SameFlags F k k'' :=
  fun fd hfd => (h' fd hfd).trans (h fd hfd)

theorem SameFlags.mono {G : Multiset Nat} (h : SameFlags F k k') (hsub : ∀ fd ∈ G, fd ∈ F) : SameFlags G k k' :=
  fun fd hfd => h fd (hsub fd hfd)

theorem Kernel.Has.congr {F' : Multiset Nat} {N' : Multiset CString} {B' : Multiset Block} (h : k.Has F N B)
    (hF : F = F') (hN : N = N') (hB : B = B') : k.Has F' N' B' := by
  subst hF hN hB
  exact h

theorem Kernel.Has.nodup (h : k.Has F N B) : F.Nodup := h.fds.choose_spec.nodup

/-- A new descriptor is none of those that are open. -/
theorem Kernel.Has.notMem (h : k.Has ({fd} + F) N B) {g : Nat} (hg : g ∈ F) : g ≠ fd := by
  rintro rfl
  exact (Multiset.nodup_cons.1 (Multiset.singleton_add g F ▸ h.nodup)).1 hg

theorem Kernel.Has.close (h : k.Has ({fd} + F) N B) : (k.close fd).Has F N B := by
  obtain ⟨n, hn⟩ := h.fds
  exact ⟨⟨n, hn.release⟩, h.names, h.mem⟩

theorem Kernel.Has.free {block : Block} (h : k.Has F N ({block} + B)) : (k.free block).Has F N B := by
  obtain ⟨n, hn⟩ := h.mem
  exact ⟨h.fds, h.names, ⟨n, hn.release⟩⟩

theorem openFd_spec (h : k.Has F N B) :
    (∃ k', k.openFd = (none, k') ∧ k'.Has F N B ∧ SameFlags F k k') ∨
      ∃ fd k', k.openFd = (some fd, k') ∧ k'.Has ({fd} + F) N B ∧ SameFlags F k k' := by
  obtain ⟨n, hn⟩ := h.fds
  unfold Kernel.openFd
  rcases hn.acquire with ⟨l, hx, hl⟩ | ⟨fd, l, hx, hl⟩ <;> simp only [hx]
  · exact .inl ⟨_, rfl, ⟨⟨n + 1, hl⟩, h.names, h.mem⟩, .refl _ _⟩
  · have hhas : Kernel.Has { k with fds := l, closeOnExec := Function.update k.closeOnExec fd false } ({fd} + F) N B :=
      ⟨⟨n, hl⟩, h.names, h.mem⟩
    exact .inr ⟨fd, _, rfl, hhas, fun g hg => Function.update_of_ne (hhas.notMem hg) ..⟩

theorem openTwo_spec (h : k.Has F N B) :
    (∃ k', k.openTwo = (none, k') ∧ k'.Has F N B ∧ SameFlags F k k') ∨
      ∃ first second k', k.openTwo = (some (first, second), k') ∧ k'.Has ({first} + ({second} + F)) N B ∧
        SameFlags F k k' := by
  obtain ⟨n, hn⟩ := h.fds
  unfold Kernel.openTwo
  rcases hn.acquireTwo with ⟨l, hx, hl⟩ | ⟨⟨first, second⟩, l, hx, hl⟩ <;> simp only [hx]
  · exact .inl ⟨_, rfl, ⟨⟨n + 1, hl⟩, h.names, h.mem⟩, .refl _ _⟩
  · have hhas : Kernel.Has { k with
        fds := l
        closeOnExec := Function.update (Function.update k.closeOnExec first false) second false }
        ({first} + ({second} + F)) N B := ⟨⟨n, hl.congr (add_assoc _ _ _)⟩, h.names, h.mem⟩
    refine .inr ⟨first, second, _, rfl, hhas, fun g hg => ?_⟩
    have hsecond := hhas.congr (add_left_comm _ _ _) rfl rfl
    show Function.update (Function.update k.closeOnExec first false) second false g = _
    rw [Function.update_of_ne (hsecond.notMem (by simp [hg])), Function.update_of_ne (hhas.notMem (by simp [hg]))]

/-- A flag that could not be set is as it was, and so are the other flags in any case. -/
theorem setFlag_spec (value : Bool) (h : k.Has ({fd} + F) N B) :
    ∃ result k', setFlag value fd k = (result, k') ∧ k'.Has ({fd} + F) N B ∧ SameFlags F k k' ∧
      (result = 0 → k'.closeOnExec fd = value) ∧ (result ≠ 0 → k'.closeOnExec = k.closeOnExec) := by
  unfold setFlag Kernel.fcntl
  have hhas : Kernel.Has { k with fcntls := k.fcntls.tail } ({fd} + F) N B := ⟨h.fds, h.names, h.mem⟩
  by_cases hget : k.fcntls.head = false
  · simp only [hget, if_true]
    exact ⟨_, _, rfl, hhas, .refl _ _, fun hc => absurd hc (by decide), fun _ => rfl⟩
  simp only [hget]
  cases hset : k.fcntls.tail.head with
  | false =>
    exact ⟨_, _, rfl, ⟨h.fds, h.names, h.mem⟩, .refl _ _, fun hc => absurd hc (by decide), fun _ => rfl⟩
  | true =>
    refine ⟨_, _, rfl, ⟨h.fds, h.names, h.mem⟩, fun g hg => ?_, fun _ => Function.update_self .., fun hc => absurd rfl hc⟩
    exact Function.update_of_ne (h.notMem hg) ..

theorem malloc_spec (h : k.Has F N B) :
    (∃ k', k.malloc = (none, k') ∧ k'.Has F N B ∧ SameFlags F k k') ∨
      ∃ block k', k.malloc = (some block, k') ∧ k'.Has F N ({block} + B) ∧ k'.closeOnExec = k.closeOnExec := by
  obtain ⟨n, hn⟩ := h.mem
  unfold Kernel.malloc
  rcases hn.acquire with ⟨l, hx, hl⟩ | ⟨block, l, hx, hl⟩ <;> simp only [hx]
  · exact .inl ⟨_, rfl, ⟨h.fds, h.names, ⟨n + 1, hl⟩⟩, .refl _ _⟩
  · exact .inr ⟨block, _, rfl, ⟨h.fds, h.names, ⟨n, hl⟩⟩, rfl⟩

end Calls

/-! ## The two ends over their life -/

section Life

variable {k : Kernel} {F : Multiset Nat} {N : Multiset CString} {B : Multiset Block} {p : Ends}

theorem Kernel.Has.closeBoth {first second : Nat} (h : k.Has ({first} + ({second} + F)) N B) :
    ((k.close first).close second).Has F N B := h.close.close

/-- A failed creation closes what it opened. -/
theorem Ends.create_makes (h : k.Has F N B) :
    Makes k F N B Ends.fds (fun _ => 0) (fun p => {p.block}) (Ends.create k) := by
  unfold Ends.create
  rcases openTwo_spec h with ⟨k₁, hx, h₁, hflags₁⟩ | ⟨first, second, k₁, hx, h₁, hflags₁⟩ <;> simp only [hx]
  · exact ⟨hflags₁, fun _ => h₁, fun b hb => by cases hb⟩
  obtain ⟨result, k₂, hy, h₂, hflags₂, hset, -⟩ := setFlag_spec true h₁
  simp only [hy]
  have hto₂ : SameFlags F k k₂ := hflags₁.trans (hflags₂.mono fun g hg => by simp [hg])
  by_cases hresult : result ≠ 0
  · rw [if_pos hresult]
    exact ⟨hto₂, fun _ => h₂.closeBoth, fun b hb => by cases hb⟩
  rw [if_neg hresult]
  obtain ⟨result', k₃, hz, h₃, hflags₃, hset', -⟩ := setFlag_spec true (h₂.congr (add_left_comm _ _ _) rfl rfl)
  simp only [hz]
  have hto₃ : SameFlags F k k₃ := hto₂.trans (hflags₃.mono fun g hg => by simp [hg])
  have h₃' := h₃.congr (add_left_comm _ _ _) rfl rfl
  by_cases hresult' : result' ≠ 0
  · rw [if_pos hresult']
    exact ⟨hto₃, fun _ => h₃'.closeBoth, fun b hb => by cases hb⟩
  rw [if_neg hresult']
  rcases malloc_spec h₃' with ⟨k₄, hw, h₄, hflags₄⟩ | ⟨block, k₄, hw, h₄, hflags₄⟩ <;> simp only [hw]
  · exact ⟨hto₃.trans (hflags₄.mono fun g hg => by simp [hg]), fun _ => h₄.closeBoth, fun b hb => by cases hb⟩
  refine ⟨fun g hg => by rw [hflags₄, hto₃ g hg], fun hc => (by cases hc), fun b hb => ?_⟩
  obtain rfl := Option.some.inj hb
  refine ⟨h₄.congr ?_ (zero_add N).symm rfl, fun g hg => ?_⟩
  · simp only [Ends.fds, Option.toList_some, Multiset.coe_singleton]
    rw [add_assoc]
  · -- the second mark has left the first one alone
    have hmarks : g = first ∨ g = second := by simpa [Ends.fds] using hg
    show k₄.closeOnExec g = true
    rw [hflags₄]
    rcases hmarks with rfl | rfl
    · rw [hflags₃ g (by simp)]
      exact hset (not_not.1 hresult)
    · exact hset' (not_not.1 hresult')

theorem Ends.fds_eq {side : Side} {fd : Nat} (h : p.fd side = some fd) : p.fds = {fd} + (p.shut side).fds := by
  cases side <;> simp only [Ends.fd] at h <;> simp [Ends.fds, Ends.shut, h, add_comm]

theorem Ends.shut_eq {side : Side} (h : p.fd side = none) : p.shut side = p := by
  obtain ⟨block, first, second⟩ := p
  cases side <;> simp only [Ends.fd] at h <;> simp only [Ends.shut, h]

theorem Ends.closeEnd_fst (side : Side) (p : Ends) (k : Kernel) : (p.closeEnd side k).1 = p.shut side := by
  unfold Ends.closeEnd
  cases hfd : p.fd side with
  | none => exact (Ends.shut_eq hfd).symm
  | some fd => rfl

/-- Closing an end that is closed already closes nothing. -/
theorem Ends.closeEnd_spec (side : Side) (h : k.Has (p.fds + F) N B) :
    (p.closeEnd side k).2.Has ((p.shut side).fds + F) N B ∧ (p.closeEnd side k).2.closeOnExec = k.closeOnExec := by
  unfold Ends.closeEnd
  cases hfd : p.fd side with
  | none => exact ⟨(Ends.shut_eq hfd).symm ▸ h, rfl⟩
  | some fd =>
    have hhas : k.Has ({fd} + ((p.shut side).fds + F)) N B := by
      refine h.congr ?_ rfl rfl
      rw [Ends.fds_eq hfd, add_assoc]
    exact ⟨hhas.close, rfl⟩

theorem Ends.shut_sub (side : Side) (p : Ends) : ∀ fd ∈ (p.shut side).fds, fd ∈ p.fds := by
  intro fd hfd
  cases h : p.fd side with
  | none => rwa [Ends.shut_eq h] at hfd
  | some g =>
    rw [Ends.fds_eq h]
    exact Multiset.mem_add.2 (.inr hfd)

theorem Ends.destroy_spec (h : k.Has (p.fds + F) N ({p.block} + B)) :
    (p.destroy k).Has F N B ∧ (p.destroy k).closeOnExec = k.closeOnExec := by
  obtain ⟨h₁, hflags₁⟩ := Ends.closeEnd_spec .first h
  obtain ⟨h₂, hflags₂⟩ := Ends.closeEnd_spec .second h₁
  have hboth : ((p.shut .first).shut .second).fds + F = F := by simp [Ends.fds, Ends.shut]
  rw [hboth] at h₂
  unfold Ends.destroy
  simp only [Ends.closeEnd_fst]
  exact ⟨h₂.free, hflags₂.trans hflags₁⟩

/-- Clearing the flag of one end leaves the flag of every other descriptor. -/
theorem Ends.clearCloexec_spec (side : Side) (h : k.Has (p.fds + F) N B) :
    (p.clearCloexec side k).2.Has (p.fds + F) N B ∧
      ∀ fd, fd ∈ p.fds + F → ((p.clearCloexec side k).1 = 0 → p.fd side ≠ some fd) →
        (p.clearCloexec side k).2.closeOnExec fd = k.closeOnExec fd := by
  unfold Ends.clearCloexec
  cases hfd : p.fd side with
  | none => exact ⟨h, fun _ _ _ => rfl⟩
  | some g =>
    have hsplit : p.fds + F = {g} + ((p.shut side).fds + F) := by rw [Ends.fds_eq hfd, add_assoc]
    obtain ⟨result, k', hx, h', hflags, -, hfail⟩ := setFlag_spec false (h.congr hsplit rfl rfl)
    simp only [hx]
    refine ⟨h'.congr hsplit.symm rfl rfl, fun fd hin hne => ?_⟩
    by_cases hresult : result = 0
    · have hother : fd ∈ (p.shut side).fds + F := by
        rw [hsplit, Multiset.mem_add, Multiset.mem_singleton] at hin
        exact hin.resolve_left fun heq => hne hresult (congrArg some heq.symm)
      exact hflags fd hother
    · rw [hfail hresult]

end Life

end EmblaOs.Ipc
