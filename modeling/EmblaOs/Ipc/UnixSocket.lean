/-
Named sockets (unix_socket.c): a listener and a datagram socket are a bound descriptor and a copy of the
path it is bound to, which is unlinked when they go. A call that fails on the way closes the descriptor
and unlinks the path if it was bound by then.
-/
import EmblaOs.Ipc.Ends

namespace EmblaOs.Ipc

open Lib Memory

/-! ## Names -/

/-- What a socket at `path` occupies in the file system: an empty path is no file. -/
def boundNames (path : CString) : Multiset CString := if path.bytes = [] then 0 else {path}

namespace Kernel

def bind (path : CString) (k : Kernel) : Bool × Kernel :=
  if k.binds.head = false then (false, { k with binds := k.binds.tail })
  else if path.bytes = [] then (true, { k with binds := k.binds.tail })
  else ((k.names.claim path).1, { k with binds := k.binds.tail, names := (k.names.claim path).2 })

/-- What the call returns is not looked at. -/
def unlink (path : CString) (k : Kernel) : Kernel :=
  if path.bytes = [] then k else { k with names := k.names.release path }

def listen (k : Kernel) : Bool × Kernel := (k.listens.head, { k with listens := k.listens.tail })

def connect (k : Kernel) : Bool × Kernel := (k.connects.head, { k with connects := k.connects.tail })

def sendto (k : Kernel) : Option Nat × Kernel := (k.sends.head, { k with sends := k.sends.tail })

end Kernel

def unixSocketSetFdCloexec : Nat → Kernel → Int × Kernel := setFlag true

/-- The path is copied into the address when it fits. -/
def unixSocketBuildAddress (platform : Platform) (path : CString) : Option CString :=
  if path.bytes.length ≥ sunPathSize platform then none else some path

/-- A new descriptor, marked or closed again: `socket` or `accept` and what follows them. -/
def openMarked (k : Kernel) : Option Nat × Kernel :=
  match k.openFd with
  | (none, k) => (none, k)
  | (some fd, k) =>
    let (result, k) := unixSocketSetFdCloexec fd k
    if result ≠ 0 then (none, k.close fd) else (some fd, k)

def unixSocketBind (path : CString) (k : Kernel) : Option Nat × Kernel :=
  match unixSocketBuildAddress k.platform path with
  | none => (none, k)
  | some address =>
    match openMarked k with
    | (none, k) => (none, k)
    | (some fd, k) =>
      let (bound, k) := k.bind address
      if bound = false then (none, k.close fd) else (some fd, k)

/-! ## Listeners and datagram sockets -/

/-- `struct UnixListener` and `struct UnixDatagramSocket` at their address. -/
structure Named where
  block : Block
  pathBlock : Block
  path : CString
  fd : Nat
  deriving DecidableEq

def Named.fds (s : Named) : Multiset Nat := {s.fd}

def Named.names (s : Named) : Multiset CString := boundNames s.path

def Named.blocks (s : Named) : Multiset Block := {s.block} + {s.pathBlock}

/-- The copy of the path and the record of a socket that is bound already. -/
def namedRecord (path : CString) (fd : Nat) (k : Kernel) : Option Named × Kernel :=
  match k.malloc with
  | (none, k) => (none, (k.close fd).unlink path)
  | (some pathBlock, k) =>
    match k.malloc with
    | (none, k) => (none, ((k.close fd).unlink path).free pathBlock)
    | (some block, k) => (some ⟨block, pathBlock, path, fd⟩, k)

/-- The backlog goes into the call of `listen` only. -/
def unixListenerCreate (path : CString) (_backlog : Int) (k : Kernel) : Option Named × Kernel :=
  match unixSocketBind path k with
  | (none, k) => (none, k)
  | (some fd, k) =>
    let (listening, k) := k.listen
    if listening = false then (none, (k.close fd).unlink path) else namedRecord path fd k

def unixDatagramSocketCreate (path : CString) (k : Kernel) : Option Named × Kernel :=
  match unixSocketBind path k with
  | (none, k) => (none, k)
  | (some fd, k) => namedRecord path fd k

def Named.destroy (s : Named) (k : Kernel) : Kernel :=
  (((k.close s.fd).unlink s.path).free s.pathBlock).free s.block

def unixListenerDestroy : Named → Kernel → Kernel := Named.destroy

def unixDatagramSocketDestroy : Named → Kernel → Kernel := Named.destroy

/-- The listener's own descriptor is only read. -/
def unixListenerAccept (_listener : Named) (k : Kernel) : Option Nat × Kernel := openMarked k

def unixSocketConnect (path : CString) (k : Kernel) : Option Nat × Kernel :=
  match unixSocketBuildAddress k.platform path with
  | none => (none, k)
  | some _ =>
    match openMarked k with
    | (none, k) => (none, k)
    | (some fd, k) =>
      let (connected, k) := k.connect
      if connected = false then (none, k.close fd) else (some fd, k)

def unixDatagramSocketSend (path message : CString) (k : Kernel) : Int × Kernel :=
  match unixSocketBuildAddress k.platform path with
  | none => (-1, k)
  | some _ =>
    match openMarked k with
    | (none, k) => (-1, k)
    | (some fd, k) =>
      let (sent, k) := k.sendto
      let k := k.close fd
      match sent with
      | none => (-1, k)
      | some count => if count ≠ message.bytes.length then (-1, k) else (0, k)

/-! ## What a call does to the host -/

section Calls

variable {k : Kernel} {F : Multiset Nat} {N : Multiset CString} {B : Multiset Block} {fd : Nat} {path : CString}

theorem bind_spec (path : CString) (h : k.Has F N B) :
    ∃ bound k', k.bind path = (bound, k') ∧ k'.closeOnExec = k.closeOnExec ∧ (bound = false → k'.Has F N B) ∧
      (bound = true → k'.Has F (boundNames path + N) B) := by
  unfold Kernel.bind boundNames
  have hhas : Kernel.Has { k with binds := k.binds.tail } F N B := ⟨h.fds, h.names, h.mem⟩
  by_cases hanswer : k.binds.head = false
  · rw [if_pos hanswer]
    exact ⟨_, _, rfl, rfl, fun _ => hhas, fun hc => by cases hc⟩
  rw [if_neg hanswer]
  by_cases hempty : path.bytes = []
  · rw [if_pos hempty, if_pos hempty]
    exact ⟨_, _, rfl, rfl, fun hc => (by cases hc), fun _ => hhas.congr rfl (zero_add N).symm rfl⟩
  rw [if_neg hempty, if_neg hempty]
  obtain ⟨n, hn⟩ := h.names
  rcases hn.claim path with ⟨-, hx⟩ | ⟨names, -, hx, hnames⟩ <;> rw [hx]
  · exact ⟨_, _, rfl, rfl, fun _ => hhas, fun hc => by cases hc⟩
  · exact ⟨_, _, rfl, rfl, fun hc => (by cases hc), fun _ => ⟨h.fds, ⟨n, hnames⟩, h.mem⟩⟩

/-- A name of one's own is taken away. -/
theorem Kernel.Has.unlink (h : k.Has F (boundNames path + N) B) : (k.unlink path).Has F N B := by
  unfold boundNames at h
  unfold Kernel.unlink
  split
  · rename_i hempty
    rw [if_pos hempty, zero_add] at h
    exact h
  · rename_i hempty
    rw [if_neg hempty] at h
    obtain ⟨n, hn⟩ := h.names
    exact ⟨h.fds, ⟨n, hn.release⟩, h.mem⟩

@[simp] theorem unlink_closeOnExec (path : CString) (k : Kernel) : (k.unlink path).closeOnExec = k.closeOnExec := by
  unfold Kernel.unlink
  split <;> rfl

theorem openMarked_makes (h : k.Has F N B) :
    Makes k F N B (fun fd => {fd}) (fun _ => 0) (fun _ => 0) (openMarked k) := by
  unfold openMarked
  rcases openFd_spec h with ⟨k₁, hx, h₁, hflags₁⟩ | ⟨fd, k₁, hx, h₁, hflags₁⟩ <;> simp only [hx]
  · exact ⟨hflags₁, fun _ => h₁, fun b hb => by cases hb⟩
  obtain ⟨result, k₂, hy, h₂, hflags₂, hset, -⟩ := setFlag_spec true h₁
  simp only [unixSocketSetFdCloexec, hy]
  have hflags : SameFlags F k k₂ := hflags₁.trans hflags₂
  by_cases hresult : result ≠ 0
  · rw [if_pos hresult]
    exact ⟨hflags, fun _ => h₂.close, fun b hb => by cases hb⟩
  · rw [if_neg hresult]
    refine ⟨hflags, fun hc => (by cases hc), fun b hb => ?_⟩
    obtain rfl := Option.some.inj hb
    refine ⟨h₂.congr rfl (zero_add N).symm (zero_add B).symm, fun g hg => ?_⟩
    obtain rfl := Multiset.mem_singleton.1 hg
    exact hset (not_not.1 hresult)

theorem unixSocketBind_makes (path : CString) (h : k.Has F N B) :
    Makes k F N B (fun fd => {fd}) (fun _ => boundNames path) (fun _ => 0) (unixSocketBind path k) := by
  unfold unixSocketBind unixSocketBuildAddress
  split
  · exact ⟨.refl _ _, fun _ => h, fun b hb => by cases hb⟩
  rename_i address haddress
  obtain rfl : path = address := by
    split at haddress
    · cases haddress
    · exact Option.some.inj haddress
  have hmakes := openMarked_makes h
  rcases hx : openMarked k with ⟨_ | fd, k₁⟩ <;> rw [hx] at hmakes <;> simp only
  · exact ⟨hmakes.flags, fun _ => hmakes.failed rfl, fun b hb => by cases hb⟩
  obtain ⟨h₁, hmark⟩ := hmakes.made fd rfl
  obtain ⟨bound, k₂, hy, hflags₂, hfail, hdone⟩ := bind_spec path (h₁.congr rfl (zero_add N) (zero_add B))
  have hflags : SameFlags F k k₂ := fun g hg => by rw [hflags₂, hmakes.flags g hg]
  simp only [hy]
  cases bound with
  | false => exact ⟨hflags, fun _ => (hfail rfl).close, fun b hb => by cases hb⟩
  | true =>
    refine ⟨hflags, fun hc => (by cases hc), fun b hb => ?_⟩
    obtain rfl := Option.some.inj hb
    refine ⟨(hdone rfl).congr rfl rfl (zero_add B).symm, fun g hg => ?_⟩
    show k₂.closeOnExec g = true
    rw [hflags₂]
    exact hmark g hg

/-- The descriptor, the name and, once there is one, the copy of the path go when memory runs out. -/
theorem namedRecord_makes (hmark : k.closeOnExec fd = true) (h : k.Has ({fd} + F) (boundNames path + N) B) :
    Makes k F N B Named.fds Named.names Named.blocks (namedRecord path fd k) := by
  unfold namedRecord
  rcases malloc_spec h with ⟨k₁, hx, h₁, hflags₁⟩ | ⟨pathBlock, k₁, hx, h₁, hflags₁⟩ <;> simp only [hx]
  · refine ⟨fun g hg => ?_, fun _ => h₁.close.unlink, fun b hb => by cases hb⟩
    rw [unlink_closeOnExec]
    exact hflags₁ g (by simp [hg])
  rcases malloc_spec h₁ with ⟨k₂, hy, h₂, hflags₂⟩ | ⟨block, k₂, hy, h₂, hflags₂⟩ <;> simp only [hy]
  · refine ⟨fun g hg => ?_, fun _ => h₂.close.unlink.free, fun b hb => by cases hb⟩
    show (Kernel.unlink path (Kernel.close fd k₂)).closeOnExec g = _
    rw [unlink_closeOnExec, ← hflags₁]
    exact hflags₂ g (by simp [hg])
  · have hflags : k₂.closeOnExec = k.closeOnExec := hflags₂.trans hflags₁
    refine ⟨fun g _ => by rw [hflags], fun hc => (by cases hc), fun b hb => ?_⟩
    obtain rfl := Option.some.inj hb
    refine ⟨h₂.congr rfl rfl ?_, fun g hg => ?_⟩
    · simp only [Named.blocks]
      rw [add_assoc]
    · have heq : g = fd := Multiset.mem_singleton.1 hg
      show k₂.closeOnExec g = true
      rw [heq, hflags, hmark]

theorem unixListenerCreate_makes (path : CString) (backlog : Int) (h : k.Has F N B) :
    Makes k F N B Named.fds Named.names Named.blocks (unixListenerCreate path backlog k) := by
  unfold unixListenerCreate
  have hmakes := unixSocketBind_makes path h
  rcases hx : unixSocketBind path k with ⟨_ | fd, k₁⟩ <;> rw [hx] at hmakes <;> simp only
  · exact ⟨hmakes.flags, fun _ => hmakes.failed rfl, fun b hb => by cases hb⟩
  obtain ⟨h₁, hmark⟩ := hmakes.made fd rfl
  have h₂ : Kernel.Has { k₁ with listens := k₁.listens.tail } ({fd} + F) (boundNames path + N) B :=
    ⟨h₁.fds, h₁.names, (h₁.congr rfl rfl (zero_add B)).mem⟩
  unfold Kernel.listen
  cases k₁.listens.head with
  | false =>
    refine ⟨fun g hg => ?_, fun _ => h₂.close.unlink, fun b hb => by cases hb⟩
    show (Kernel.unlink path _).closeOnExec g = _
    rw [unlink_closeOnExec]
    exact hmakes.flags g hg
  | true =>
    have hrecord : Makes _ F N B Named.fds Named.names Named.blocks
        (namedRecord path fd { k₁ with listens := k₁.listens.tail }) :=
      namedRecord_makes (hmark fd (Multiset.mem_singleton_self fd)) h₂
    exact ⟨hmakes.flags.trans hrecord.flags, hrecord.failed, hrecord.made⟩

theorem unixDatagramSocketCreate_makes (path : CString) (h : k.Has F N B) :
    Makes k F N B Named.fds Named.names Named.blocks (unixDatagramSocketCreate path k) := by
  unfold unixDatagramSocketCreate
  have hmakes := unixSocketBind_makes path h
  rcases hx : unixSocketBind path k with ⟨_ | fd, k₁⟩ <;> rw [hx] at hmakes <;> simp only
  · exact ⟨hmakes.flags, fun _ => hmakes.failed rfl, fun b hb => by cases hb⟩
  obtain ⟨h₁, hmark⟩ := hmakes.made fd rfl
  have hrecord := namedRecord_makes (hmark fd (Multiset.mem_singleton_self fd)) (h₁.congr rfl rfl (zero_add B))
  exact ⟨hmakes.flags.trans hrecord.flags, hrecord.failed, hrecord.made⟩

theorem Named.destroy_spec {s : Named} (h : k.Has (s.fds + F) (s.names + N) (s.blocks + B)) :
    (s.destroy k).Has F N B ∧ (s.destroy k).closeOnExec = k.closeOnExec := by
  have hblocks : s.blocks + B = {s.pathBlock} + ({s.block} + B) := by
    rw [Named.blocks]
    abel
  have h' := h.congr rfl rfl hblocks
  refine ⟨h'.close.unlink.free.free, ?_⟩
  show (Kernel.unlink s.path _).closeOnExec = _
  rw [unlink_closeOnExec]
  rfl

theorem unixSocketConnect_makes (path : CString) (h : k.Has F N B) :
    Makes k F N B (fun fd => {fd}) (fun _ => 0) (fun _ => 0) (unixSocketConnect path k) := by
  unfold unixSocketConnect
  split
  · exact ⟨.refl _ _, fun _ => h, fun b hb => by cases hb⟩
  have hmakes := openMarked_makes h
  rcases hx : openMarked k with ⟨_ | fd, k₁⟩ <;> rw [hx] at hmakes <;> simp only
  · exact ⟨hmakes.flags, fun _ => hmakes.failed rfl, fun b hb => by cases hb⟩
  obtain ⟨h₁, hmark⟩ := hmakes.made fd rfl
  unfold Kernel.connect
  have h₂ : Kernel.Has { k₁ with connects := k₁.connects.tail } ({fd} + F) (0 + N) (0 + B) :=
    ⟨h₁.fds, h₁.names, h₁.mem⟩
  cases k₁.connects.head with
  | false =>
    exact ⟨hmakes.flags, fun _ => (h₂.congr rfl (zero_add N) (zero_add B)).close, fun b hb => by cases hb⟩
  | true =>
    refine ⟨hmakes.flags, fun hc => (by cases hc), fun b hb => ?_⟩
    obtain rfl := Option.some.inj hb
    exact ⟨h₂, hmark⟩

/-- Sending leaves no descriptor behind, whether the message goes out or not. -/
theorem unixDatagramSocketSend_spec (path message : CString) (h : k.Has F N B) :
    (unixDatagramSocketSend path message k).2.Has F N B ∧ SameFlags F k (unixDatagramSocketSend path message k).2 := by
  unfold unixDatagramSocketSend
  split
  · exact ⟨h, .refl _ _⟩
  have hmakes := openMarked_makes h
  rcases hx : openMarked k with ⟨_ | fd, k₁⟩ <;> rw [hx] at hmakes <;> simp only
  · exact ⟨hmakes.failed rfl, hmakes.flags⟩
  obtain ⟨h₁, -⟩ := hmakes.made fd rfl
  have h₁' := h₁.congr rfl (zero_add N) (zero_add B)
  have hsent : Kernel.Has { k₁ with sends := k₁.sends.tail } ({fd} + F) N B := ⟨h₁'.fds, h₁'.names, h₁'.mem⟩
  have h₂ := hsent.close
  unfold Kernel.sendto
  cases k₁.sends.head with
  | none => exact ⟨h₂, hmakes.flags⟩
  | some count =>
    simp only
    split
    · exact ⟨h₂, hmakes.flags⟩
    · exact ⟨h₂, hmakes.flags⟩

end Calls

end EmblaOs.Ipc
