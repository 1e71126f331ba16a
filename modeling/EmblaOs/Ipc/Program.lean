/-
A program that uses the calls of pipe.c, socket_pair.c and unix_socket.c in any order, among descriptors
it opens and closes by itself and among other programs that bind names of their own. Every descriptor,
name and block has one owner, and a descriptor of these calls is close-on-exec until it is cleared.
-/
import EmblaOs.Ipc.UnixSocket
import EmblaOs.Lib.Runs

namespace EmblaOs.Ipc

open Lib Memory

/-! ## The program -/

structure Program where
  kernel : Kernel
  /-- pipes and socket pairs -/
  ends : List Ends
  /-- listeners and datagram sockets -/
  sockets : List Named
  /-- what `unix_socket_connect` and `unix_listener_accept` have returned -/
  streams : List Nat
  /-- the descriptors that a `…_clear_cloexec_…` went through for, until their numbers are given out anew -/
  cleared : List Nat
  /-- the descriptors of the rest of the program -/
  others : List Nat
  /-- the names of other programs -/
  foreign : List CString

namespace Program

/-- The descriptors that the calls have made. -/
def fds (p : Program) : Multiset Nat := total Ends.fds p.ends + total Named.fds p.sockets + p.streams

def names (p : Program) : Multiset CString := total Named.names p.sockets

def blocks (p : Program) : Multiset Block := total (fun e : Ends => {e.block}) p.ends + total Named.blocks p.sockets

/-- New descriptors are not cleared, whoever had their numbers before. -/
def renew (fds : Multiset Nat) (cleared : List Nat) : List Nat := cleared.filter fun fd => fd ∉ fds

def addEnds (p : Program) : Option Ends × Kernel → Program
  | (none, k) => { p with kernel := k }
  | (some e, k) => { p with kernel := k, ends := p.ends ++ [e], cleared := renew e.fds p.cleared }

def addSocket (p : Program) : Option Named × Kernel → Program
  | (none, k) => { p with kernel := k }
  | (some s, k) => { p with kernel := k, sockets := p.sockets ++ [s], cleared := renew s.fds p.cleared }

def addStream (p : Program) : Option Nat × Kernel → Program
  | (none, k) => { p with kernel := k }
  | (some fd, k) => { p with kernel := k, streams := fd :: p.streams, cleared := renew {fd} p.cleared }

end Program

/-- Objects are named by their places. -/
inductive IpcOp
  | createPipe
  | createSocketPair (type : Int)
  | closeEnd (i : Nat) (side : Side)
  | clearCloexec (i : Nat) (side : Side)
  | destroyEnds (i : Nat)
  | createListener (path : CString) (backlog : Int)
  | createDatagramSocket (path : CString)
  | destroySocket (i : Nat)
  | accept (i : Nat)
  | connect (path : CString)
  | send (path message : CString)
  /-- the program closes what `connect` or `accept` gave it -/
  | closeStream (i : Nat)
  | openOther
  | closeOther (i : Nat)
  | foreignBind (path : CString)
  | foreignUnlink (i : Nat)

/-- `none` where there is no such object. -/
def IpcOp.exec : IpcOp → Program → Option Program
  | createPipe, p => some (p.addEnds (pipeCreate p.kernel))
  | createSocketPair type, p => some (p.addEnds (socketPairCreate type p.kernel))
  | closeEnd i side, p => do
    let e ← p.ends[i]?
    return { p with kernel := (e.closeEnd side p.kernel).2, ends := p.ends.set i (e.closeEnd side p.kernel).1 }
  | clearCloexec i side, p => do
    let e ← p.ends[i]?
    let (result, k) := e.clearCloexec side p.kernel
    return { p with kernel := k, cleared := if result = 0 then (e.fd side).toList ++ p.cleared else p.cleared }
  | destroyEnds i, p => do
    let e ← p.ends[i]?
    return { p with kernel := e.destroy p.kernel, ends := p.ends.eraseIdx i }
  | createListener path backlog, p => some (p.addSocket (unixListenerCreate path backlog p.kernel))
  | createDatagramSocket path, p => some (p.addSocket (unixDatagramSocketCreate path p.kernel))
  | destroySocket i, p => do
    let s ← p.sockets[i]?
    return { p with kernel := s.destroy p.kernel, sockets := p.sockets.eraseIdx i }
  | accept i, p => do
    let s ← p.sockets[i]?
    return p.addStream (unixListenerAccept s p.kernel)
  | connect path, p => some (p.addStream (unixSocketConnect path p.kernel))
  | send path message, p => some { p with kernel := (unixDatagramSocketSend path message p.kernel).2 }
  | closeStream i, p => do
    let fd ← p.streams[i]?
    return { p with kernel := p.kernel.close fd, streams := p.streams.eraseIdx i }
  | openOther, p =>
    match p.kernel.openFd with
    | (none, k) => some { p with kernel := k }
    | (some fd, k) => some { p with kernel := k, others := fd :: p.others }
  | closeOther i, p => do
    let fd ← p.others[i]?
    return { p with kernel := p.kernel.close fd, others := p.others.eraseIdx i }
  | foreignBind path, p =>
    match p.kernel.names.claim path with
    | (false, _) => none
    | (true, names) => some { p with kernel := { p.kernel with names := names }, foreign := path :: p.foreign }
  | foreignUnlink i, p => do
    let path ← p.foreign[i]?
    return { p with
      kernel := { p.kernel with names := p.kernel.names.release path }
      foreign := p.foreign.eraseIdx i }

/-! ## One owner each -/

/-- What is open, bound and in use belongs to one of the program's objects, to the rest of the program
or to others, and what the calls made is close-on-exec unless it was cleared. -/
structure Program.Inv (r : Multiset Block) (p : Program) : Prop where
  has : p.kernel.Has (p.fds + p.others) (p.names + p.foreign) (p.blocks + r)
  marked : ∀ fd ∈ p.fds, fd ∉ p.cleared → p.kernel.closeOnExec fd = true

section Step

variable {r : Multiset Block} {p p' : Program} {i : Nat}

theorem coe_eraseIdx {α : Type} {l : List α} {a : α} (h : l[i]? = some a) :
    (l : Multiset α) = {a} + (l.eraseIdx i : List α) := by
  obtain ⟨hi, rfl⟩ := List.getElem?_eq_some_iff.1 h
  rw [Multiset.singleton_add, Multiset.cons_coe]
  exact Multiset.coe_eq_coe.2 (List.getElem_cons_eraseIdx_perm hi).symm

/-- A new descriptor is marked, and the others are as they were. -/
theorem marked_add {F G : Multiset Nat} {cleared : List Nat} {k k' : Kernel}
    (hold : ∀ fd ∈ F, fd ∉ cleared → k.closeOnExec fd = true) (hflags : SameFlags F k k') (hnew : Marked G k') :
    ∀ fd ∈ G + F, fd ∉ Program.renew G cleared → k'.closeOnExec fd = true := by
  intro fd hfd hcleared
  by_cases hG : fd ∈ G
  · exact hnew fd hG
  · have hF : fd ∈ F := (Multiset.mem_add.1 hfd).resolve_left hG
    rw [hflags fd hF]
    exact hold fd hF fun hc => hcleared (List.mem_filter.2 ⟨hc, by simpa using hG⟩)

theorem Program.Inv.addEnds (h : p.Inv r) {out : Option Ends × Kernel}
    (hmakes : Makes p.kernel (p.fds + p.others) (p.names + p.foreign) (p.blocks + r) Ends.fds (fun _ => 0)
      (fun e => {e.block}) out) : (p.addEnds out).Inv r := by
  have hflags : SameFlags p.fds p.kernel out.2 := hmakes.flags.mono fun fd hfd => Multiset.mem_add.2 (.inl hfd)
  obtain ⟨_ | e, k⟩ := out
  · exact ⟨hmakes.failed rfl, fun fd hfd hc => by rw [← h.marked fd hfd hc]; exact hflags fd hfd⟩
  · obtain ⟨hhas, hmarked⟩ := hmakes.made e rfl
    have hfds : (p.addEnds (some e, k)).fds = e.fds + p.fds := by
      simp only [Program.fds, Program.addEnds, total_snoc]
      abel
    refine ⟨hhas.congr ?_ (zero_add _) ?_, ?_⟩
    · rw [hfds, add_assoc]
      rfl
    · simp only [Program.blocks, Program.addEnds, total_snoc]
      abel
    · rw [hfds]
      exact marked_add h.marked hflags hmarked

theorem Program.Inv.addSocket (h : p.Inv r) {out : Option Named × Kernel}
    (hmakes : Makes p.kernel (p.fds + p.others) (p.names + p.foreign) (p.blocks + r) Named.fds Named.names
      Named.blocks out) : (p.addSocket out).Inv r := by
  have hflags : SameFlags p.fds p.kernel out.2 := hmakes.flags.mono fun fd hfd => Multiset.mem_add.2 (.inl hfd)
  obtain ⟨_ | s, k⟩ := out
  · exact ⟨hmakes.failed rfl, fun fd hfd hc => by rw [← h.marked fd hfd hc]; exact hflags fd hfd⟩
  · obtain ⟨hhas, hmarked⟩ := hmakes.made s rfl
    have hfds : (p.addSocket (some s, k)).fds = s.fds + p.fds := by
      simp only [Program.fds, Program.addSocket, total_snoc]
      abel
    refine ⟨hhas.congr ?_ ?_ ?_, ?_⟩
    · rw [hfds, add_assoc]
      rfl
    · simp only [Program.names, Program.addSocket, total_snoc]
      abel
    · simp only [Program.blocks, Program.addSocket, total_snoc]
      abel
    · rw [hfds]
      exact marked_add h.marked hflags hmarked

theorem Program.Inv.addStream (h : p.Inv r) {out : Option Nat × Kernel}
    (hmakes : Makes p.kernel (p.fds + p.others) (p.names + p.foreign) (p.blocks + r) (fun fd => {fd}) (fun _ => 0)
      (fun _ => 0) out) : (p.addStream out).Inv r := by
  have hflags : SameFlags p.fds p.kernel out.2 := hmakes.flags.mono fun fd hfd => Multiset.mem_add.2 (.inl hfd)
  obtain ⟨_ | fd, k⟩ := out
  · exact ⟨hmakes.failed rfl, fun fd hfd hc => by rw [← h.marked fd hfd hc]; exact hflags fd hfd⟩
  · obtain ⟨hhas, hmarked⟩ := hmakes.made fd rfl
    have hfds : (p.addStream (some fd, k)).fds = {fd} + p.fds := by
      simp only [Program.fds, Program.addStream, ← Multiset.cons_coe, ← Multiset.singleton_add]
      abel
    refine ⟨hhas.congr ?_ (zero_add _) (zero_add _), ?_⟩
    · rw [hfds, add_assoc]
      rfl
    · rw [hfds]
      exact marked_add h.marked hflags hmarked

/-- What the program owns besides one of its pipes or socket pairs. -/
theorem Program.Inv.ends_frame (h : p.Inv r) {e : Ends} (hget : p.ends[i]? = some e) :
    p.kernel.Has (e.fds + (total Ends.fds (p.ends.eraseIdx i) + total Named.fds p.sockets + p.streams + p.others))
      (p.names + p.foreign)
      ({e.block} + (total (fun e : Ends => {e.block}) (p.ends.eraseIdx i) + total Named.blocks p.sockets + r)) := by
  refine h.has.congr ?_ rfl ?_
  · simp only [Program.fds, total_eraseIdx hget]
    abel
  · simp only [Program.blocks, total_eraseIdx hget]
    abel

theorem IpcOp.closeEnd_inv {side : Side} (hx : (IpcOp.closeEnd i side).exec p = some p') (h : p.Inv r) :
    p'.Inv r := by
  obtain ⟨e, hget, hx⟩ := Option.bind_eq_some_iff.1 hx
  obtain rfl := Option.some.inj hx
  obtain ⟨hhas, hflags⟩ := Ends.closeEnd_spec side (h.ends_frame hget)
  refine ⟨hhas.congr ?_ rfl ?_, fun fd hfd hc => ?_⟩
  · simp only [Program.fds, Ends.closeEnd_fst, total_set hget]
    abel
  · have hblock : (e.shut side).block = e.block := by cases side <;> rfl
    simp only [Program.blocks, Ends.closeEnd_fst, total_set hget, hblock]
    abel
  · have hold : fd ∈ p.fds := by
      simp only [Program.fds, Ends.closeEnd_fst, total_set hget, Multiset.mem_add] at hfd
      simp only [Program.fds, total_eraseIdx hget, Multiset.mem_add]
      exact hfd.imp_left (Or.imp_left (Or.imp_left (Ends.shut_sub side e fd)))
    show (e.closeEnd side p.kernel).2.closeOnExec fd = true
    rw [hflags]
    exact h.marked fd hold hc

theorem IpcOp.clearCloexec_inv {side : Side} (hx : (IpcOp.clearCloexec i side).exec p = some p') (h : p.Inv r) :
    p'.Inv r := by
  obtain ⟨e, hget, hx⟩ := Option.bind_eq_some_iff.1 hx
  obtain rfl := Option.some.inj hx
  obtain ⟨hhas, hflags⟩ := Ends.clearCloexec_spec side (h.ends_frame hget)
  refine ⟨hhas.congr ?_ rfl ?_, fun fd hfd hc => ?_⟩
  · simp only [Program.fds, total_eraseIdx hget]
    abel
  · simp only [Program.blocks, total_eraseIdx hget]
    abel
  · have hother : (e.clearCloexec side p.kernel).1 = 0 → e.fd side ≠ some fd := by
      intro hresult hside
      apply hc
      show fd ∈ if (e.clearCloexec side p.kernel).1 = 0 then (e.fd side).toList ++ p.cleared else p.cleared
      rw [if_pos hresult, hside]
      exact List.mem_append.2 (.inl (by simp))
    have hold : fd ∉ p.cleared := by
      intro hin
      apply hc
      show fd ∈ if (e.clearCloexec side p.kernel).1 = 0 then (e.fd side).toList ++ p.cleared else p.cleared
      split
      · exact List.mem_append.2 (.inr hin)
      · exact hin
    have hin : fd ∈ e.fds + (total Ends.fds (p.ends.eraseIdx i) + total Named.fds p.sockets + p.streams + p.others) := by
      simp only [Program.fds, total_eraseIdx hget, Multiset.mem_add] at hfd ⊢
      tauto
    show (e.clearCloexec side p.kernel).2.closeOnExec fd = true
    rw [hflags fd hin hother]
    exact h.marked fd hfd hold

theorem IpcOp.destroyEnds_inv (hx : (IpcOp.destroyEnds i).exec p = some p') (h : p.Inv r) : p'.Inv r := by
  obtain ⟨e, hget, hx⟩ := Option.bind_eq_some_iff.1 hx
  obtain rfl := Option.some.inj hx
  obtain ⟨hhas, hflags⟩ := Ends.destroy_spec (h.ends_frame hget)
  refine ⟨hhas, fun fd hfd hc => ?_⟩
  have hold : fd ∈ p.fds := by
    simp only [Program.fds, total_eraseIdx hget, Multiset.mem_add] at hfd ⊢
    tauto
  show (e.destroy p.kernel).closeOnExec fd = true
  rw [hflags]
  exact h.marked fd hold hc

theorem IpcOp.destroySocket_inv (hx : (IpcOp.destroySocket i).exec p = some p') (h : p.Inv r) : p'.Inv r := by
  obtain ⟨s, hget, hx⟩ := Option.bind_eq_some_iff.1 hx
  obtain rfl := Option.some.inj hx
  have hframe : p.kernel.Has
      (s.fds + (total Ends.fds p.ends + total Named.fds (p.sockets.eraseIdx i) + p.streams + p.others))
      (s.names + (total Named.names (p.sockets.eraseIdx i) + p.foreign))
      (s.blocks + (total (fun e : Ends => {e.block}) p.ends + total Named.blocks (p.sockets.eraseIdx i) + r)) := by
    refine h.has.congr ?_ ?_ ?_
    · simp only [Program.fds, total_eraseIdx hget]
      abel
    · simp only [Program.names, total_eraseIdx hget]
      abel
    · simp only [Program.blocks, total_eraseIdx hget]
      abel
  obtain ⟨hhas, hflags⟩ := Named.destroy_spec hframe
  refine ⟨hhas, fun fd hfd hc => ?_⟩
  have hold : fd ∈ p.fds := by
    simp only [Program.fds, total_eraseIdx hget, Multiset.mem_add] at hfd ⊢
    tauto
  show (s.destroy p.kernel).closeOnExec fd = true
  rw [hflags]
  exact h.marked fd hold hc

theorem IpcOp.exec_inv {op : IpcOp} (hx : op.exec p = some p') (h : p.Inv r) : p'.Inv r := by
  cases op with
  | createPipe =>
    obtain rfl := Option.some.inj hx
    exact h.addEnds (Ends.create_makes h.has)
  | createSocketPair type =>
    obtain rfl := Option.some.inj hx
    exact h.addEnds (Ends.create_makes h.has)
  | closeEnd i side => exact closeEnd_inv hx h
  | clearCloexec i side => exact clearCloexec_inv hx h
  | destroyEnds i => exact destroyEnds_inv hx h
  | createListener path backlog =>
    obtain rfl := Option.some.inj hx
    exact h.addSocket (unixListenerCreate_makes path backlog h.has)
  | createDatagramSocket path =>
    obtain rfl := Option.some.inj hx
    exact h.addSocket (unixDatagramSocketCreate_makes path h.has)
  | destroySocket i => exact destroySocket_inv hx h
  | accept i =>
    obtain ⟨s, hget, hx⟩ := Option.bind_eq_some_iff.1 hx
    obtain rfl := Option.some.inj hx
    exact h.addStream (openMarked_makes h.has)
  | connect path =>
    obtain rfl := Option.some.inj hx
    exact h.addStream (unixSocketConnect_makes path h.has)
  | send path message =>
    obtain rfl := Option.some.inj hx
    obtain ⟨hhas, hflags⟩ := unixDatagramSocketSend_spec path message h.has
    refine ⟨hhas, fun fd hfd hc => ?_⟩
    rw [← h.marked fd hfd hc]
    exact hflags fd (Multiset.mem_add.2 (.inl hfd))
  | closeStream i =>
    obtain ⟨fd, hget, hx⟩ := Option.bind_eq_some_iff.1 hx
    obtain rfl := Option.some.inj hx
    have hframe : p.kernel.Has ({fd} + (total Ends.fds p.ends + total Named.fds p.sockets +
        (p.streams.eraseIdx i : List Nat) + p.others)) (p.names + p.foreign) (p.blocks + r) := by
      refine h.has.congr ?_ rfl rfl
      simp only [Program.fds, coe_eraseIdx hget]
      abel
    refine ⟨hframe.close, fun g hg hc => h.marked g ?_ hc⟩
    simp only [Program.fds, coe_eraseIdx hget, Multiset.mem_add] at hg ⊢
    tauto
  | openOther =>
    rcases openFd_spec h.has with ⟨k, hy, hhas, hflags⟩ | ⟨fd, k, hy, hhas, hflags⟩ <;> simp only [exec, hy] at hx <;>
      obtain rfl := Option.some.inj hx
    · exact ⟨hhas, fun g hg hc => by rw [← h.marked g hg hc]; exact hflags g (Multiset.mem_add.2 (.inl hg))⟩
    · refine ⟨hhas.congr ?_ rfl rfl, fun g hg hc => ?_⟩
      · simp only [Program.fds, ← Multiset.cons_coe, ← Multiset.singleton_add]
        abel
      · rw [← h.marked g hg hc]
        exact hflags g (Multiset.mem_add.2 (.inl hg))
  | closeOther i =>
    obtain ⟨fd, hget, hx⟩ := Option.bind_eq_some_iff.1 hx
    obtain rfl := Option.some.inj hx
    have hframe : p.kernel.Has ({fd} + (p.fds + (p.others.eraseIdx i : List Nat))) (p.names + p.foreign)
        (p.blocks + r) := by
      refine h.has.congr ?_ rfl rfl
      rw [coe_eraseIdx hget]
      abel
    exact ⟨hframe.close, h.marked⟩
  | foreignBind path =>
    obtain ⟨n, hn⟩ := h.has.names
    rcases hn.claim path with ⟨-, hy⟩ | ⟨names, -, hy, hnames⟩ <;> simp only [exec, hy] at hx
    · cases hx
    · obtain rfl := Option.some.inj hx
      refine ⟨⟨h.has.fds, ⟨n, hnames.congr ?_⟩, h.has.mem⟩, h.marked⟩
      simp only [Program.names, ← Multiset.cons_coe, ← Multiset.singleton_add]
      abel
  | foreignUnlink i =>
    obtain ⟨path, hget, hx⟩ := Option.bind_eq_some_iff.1 hx
    obtain rfl := Option.some.inj hx
    obtain ⟨n, hn⟩ := h.has.names
    refine ⟨⟨h.has.fds, ⟨n, Ledger.Holds.release (hn.congr ?_)⟩, h.has.mem⟩, h.marked⟩
    simp only [Program.names, coe_eraseIdx hget]
    abel

end Step

/-! ## Whole runs -/

/-- A program that has made none of the calls yet. -/
def Program.start (k : Kernel) (others : List Nat) (foreign : List CString) : Program := ⟨k, [], [], [], [], others, foreign⟩

/-- Everything is destroyed or closed. -/
def Program.finish (p : Program) : Kernel :=
  let k := p.ends.foldl (fun k e => e.destroy k) p.kernel
  let k := p.sockets.foldl (fun k s => s.destroy k) k
  p.streams.foldl (fun k fd => k.close fd) k

/-- Things that give back what they own are destroyed one after the other. -/
theorem foldl_has {β : Type} {fds : β → Multiset Nat} {names : β → Multiset CString} {blocks : β → Multiset Block}
    (destroy : Kernel → β → Kernel)
    (hdestroy : ∀ {b : β} {k : Kernel} {F : Multiset Nat} {N : Multiset CString} {B : Multiset Block},
      k.Has (fds b + F) (names b + N) (blocks b + B) → (destroy k b).Has F N B) :
    ∀ (l : List β) {k : Kernel} {F : Multiset Nat} {N : Multiset CString} {B : Multiset Block},
      k.Has (total fds l + F) (total names l + N) (total blocks l + B) → (l.foldl destroy k).Has F N B
  | [], _, _, _, _, h => h.congr (zero_add _) (zero_add _) (zero_add _)
  | b :: l, k, F, N, B, h => by
    refine foldl_has destroy hdestroy l (hdestroy (h.congr ?_ ?_ ?_)) <;> rw [total_cons, add_assoc]

theorem total_zero {α β : Type} (l : List β) : total (fun _ => (0 : Multiset α)) l = 0 := by
  induction l with
  | nil => rfl
  | cons b l ih => rw [total_cons, ih, zero_add]

theorem total_singleton {α : Type} (l : List α) : total (fun a => ({a} : Multiset α)) l = l := by
  induction l with
  | nil => rfl
  | cons a l ih => rw [total_cons, ih, Multiset.singleton_add, Multiset.cons_coe]

theorem Program.Inv.finish {r : Multiset Block} {p : Program} (h : p.Inv r) : p.finish.Has p.others p.foreign r := by
  have hends : p.kernel.Has (total Ends.fds p.ends + (total Named.fds p.sockets + (p.streams + p.others)))
      (total (fun _ : Ends => (0 : Multiset CString)) p.ends + (p.names + (p.foreign : Multiset CString)))
      (total (fun e : Ends => {e.block}) p.ends + (total Named.blocks p.sockets + r)) := by
    refine h.has.congr ?_ ?_ ?_
    · simp only [Program.fds]
      abel
    · rw [total_zero, zero_add]
    · simp only [Program.blocks]
      abel
  have hsockets := foldl_has (fun k e => e.destroy k)
    (fun hk => (Ends.destroy_spec (hk.congr rfl (zero_add _) rfl)).1) p.ends hends
  have hstreams := foldl_has (fun k s => s.destroy k) (fun hk => (Named.destroy_spec hk).1) p.sockets hsockets
  refine foldl_has (fun k fd => k.close fd) (fun hk => (hk.congr rfl (zero_add _) (zero_add _)).close) p.streams
    (hstreams.congr ?_ ?_ ?_)
  · rw [total_singleton]
  · rw [total_zero, zero_add]
  · rw [total_zero, zero_add]

theorem Program.start_inv {k : Kernel} {others : List Nat} {foreign : List CString} {r : Multiset Block}
    (h : k.Has others foreign r) : (Program.start k others foreign).Inv r := by
  refine ⟨h.congr ?_ ?_ ?_, fun fd hfd => ?_⟩
  · simp [Program.fds, Program.start]
  · simp [Program.names, Program.start]
  · simp [Program.blocks, Program.start]
  · simp [Program.fds, Program.start] at hfd

/-- A kernel that grants everything: three descriptors are open, and 3, 4, 5 and so on come next. -/
def obligingKernel : Kernel where
  platform := .linux
  fds := ⟨[0, 1, 2], fun n => some (n + 3), 0, 0⟩
  closeOnExec := fun _ => false
  names := ⟨[], fun _ => none, 0, 0⟩
  mem := freshMem 100
  fcntls := fun _ => true
  binds := fun _ => true
  listens := fun _ => true
  connects := fun _ => true
  sends := fun _ => none

theorem obligingKernel_has : obligingKernel.Has ([0, 1, 2] : List Nat) ([] : List CString) 0 :=
  ⟨⟨0, rfl, by decide, rfl, rfl⟩, ⟨0, rfl, Multiset.nodup_zero, rfl, rfl⟩, ⟨0, freshMem_holds 100⟩⟩

end EmblaOs.Ipc
