/-
Sending notifications (service_notify.c, unix_datagram_socket_send in unix_socket.c) and reading
them back. Each message is one line with its newline, so the lines of a stream of messages are the
lines that were sent, and the parser finds in it what the accepted calls said.
-/
import EmblaOs.Service.Parser

namespace EmblaOs

open Lib

/-! ## The socket -/

/-- `sizeof(addr->sun_path)`. -/
def sunPathSize : Platform → Nat
  | .linux => 108
  | .darwin => 104

/-- What `sendto` returns, against the length of the message. -/
inductive SendtoAnswer
  | whole
  | short
  | error
  deriving DecidableEq, Repr

/-- The program that notifies: its memory, what its socket calls answer next, and the messages that
went out whole, in order. -/
structure Notifier where
  host : Host
  sockets : Stream' Bool
  fcntls : Stream' Bool
  sends : Stream' SendtoAnswer
  /-- the string in a buffer after an `snprintf` that failed -/
  leftover : CString
  sent : List (List UInt8)

namespace Notifier

def socket (n : Notifier) : Bool × Notifier := (n.sockets.head, { n with sockets := n.sockets.tail })

def fcntl (n : Notifier) : Bool × Notifier := (n.fcntls.head, { n with fcntls := n.fcntls.tail })

def sendto (message : List UInt8) (n : Notifier) : SendtoAnswer × Notifier :=
  (n.sends.head, { n with
    sends := n.sends.tail
    sent := if n.sends.head = .whole then n.sent ++ [message] else n.sent })

def malloc (n : Notifier) : Bool × Notifier := (n.host.malloc.1, { n with host := n.host.malloc.2 })

end Notifier

/-- The flags are read, then set. -/
def unixSocketSetFdCloexec (n : Notifier) : Int × Notifier :=
  let (flags, n) := n.fcntl
  if flags = false then (-1, n)
  else
    let (set, n) := n.fcntl
    (if set then 0 else -1, n)

def unixDatagramSocketSend (path : Option CString) (message : List UInt8) (n : Notifier) : Int × Notifier :=
  match path with
  | none => (-1, n)
  | some path =>
    if path.bytes.length ≥ sunPathSize n.host.platform then (-1, n)
    else
      let (fd, n) := n.socket
      if fd = false then (-1, n)
      else
        let (result, n) := unixSocketSetFdCloexec n
        if result ≠ 0 then (-1, n)
        else
          let (sent, n) := n.sendto message
          if sent ≠ .whole then (-1, n) else (0, n)

/-! ## The messages -/

def intMax : Nat := 2147483647

/-- The string that `snprintf` leaves in a buffer of `size` bytes for the output `text`. It fails
when the length of the output is no `int`. -/
def snprintf (size : Nat) (text : List UInt8) (leftover : CString) : List UInt8 :=
  if text.length ≤ intMax then text.take (size - 1) else leftover.bytes

def serviceNotifyReady (path : Option CString) : Notifier → Int × Notifier :=
  unixDatagramSocketSend path (bytes "READY=1\n")

def serviceNotifyStopping (path : Option CString) : Notifier → Int × Notifier :=
  unixDatagramSocketSend path (bytes "STOPPING=1\n")

def serviceNotifyStatus (path status : Option CString) (n : Notifier) : Int × Notifier :=
  match status with
  | none => (-1, n)
  | some status =>
    if ((Buffer.holding status.bytes).strchr 0 newline).isSome then (-1, n)
    else
      let messageLength := ((bytes "STATUS=").length + status.bytes.length + 2) % 2 ^ 64
      let (message, n) := n.malloc
      if message = false then (-1, n)
      else unixDatagramSocketSend path (snprintf messageLength (bytes "STATUS=" ++ status.bytes ++ [newline]) n.leftover) n

inductive NotifyCall
  | ready (path : Option CString)
  | stopping (path : Option CString)
  | status (path text : Option CString)
  deriving DecidableEq

def NotifyCall.exec : NotifyCall → Notifier → Int × Notifier
  | .ready path => serviceNotifyReady path
  | .stopping path => serviceNotifyStopping path
  | .status path text => serviceNotifyStatus path text

/-- The calls one after the other, with their results. -/
def notifyAll : List NotifyCall → Notifier → List (NotifyCall × Int) × Notifier
  | [], n => ([], n)
  | call :: rest, n =>
    let (result, n) := call.exec n
    let (log, n) := notifyAll rest n
    ((call, result) :: log, n)

/-! ## What goes out -/

namespace Notifier

/-- No socket call fails. -/
structure Works (n : Notifier) (path : Option CString) : Prop where
  path : ∃ p, path = some p ∧ p.bytes.length < sunPathSize n.host.platform
  socket : n.sockets.head = true
  getfd : n.fcntls.head = true
  setfd : n.fcntls.tail.head = true
  sendto : n.sends.head = .whole

end Notifier

/-- A send is accepted and the message goes out, or nothing does; and without socket errors it is
accepted. -/
theorem unixDatagramSocketSend_cases (path : Option CString) (message : List UInt8) (n : Notifier) :
    ((unixDatagramSocketSend path message n).1 = 0 ∧
      (unixDatagramSocketSend path message n).2.sent = n.sent ++ [message]) ∨
    ((unixDatagramSocketSend path message n).1 = -1 ∧ (unixDatagramSocketSend path message n).2.sent = n.sent ∧
      ¬ n.Works path) := by
  cases path with
  | none =>
    refine .inr ⟨rfl, rfl, fun hc => ?_⟩
    obtain ⟨p, hp, -⟩ := hc.path
    cases hp
  | some path =>
    unfold unixDatagramSocketSend unixSocketSetFdCloexec Notifier.socket Notifier.fcntl Notifier.sendto
    by_cases hpath : path.bytes.length ≥ sunPathSize n.host.platform
    · simp only [hpath, if_true]
      refine .inr ⟨trivial, trivial, fun hc => ?_⟩
      obtain ⟨p, hp, hlen⟩ := hc.path
      cases hp
      omega
    by_cases hsocket : n.sockets.head = true
    swap
    · simp only [hpath, hsocket]
      exact .inr ⟨rfl, rfl, fun hc => hsocket hc.socket⟩
    by_cases hget : n.fcntls.head = true
    swap
    · simp [hpath, hsocket, hget]
      exact fun hc => hget hc.getfd
    by_cases hset : n.fcntls.tail.head = true
    swap
    · simp [hpath, hsocket, hget, hset]
      exact fun hc => hset hc.setfd
    by_cases hsend : n.sends.head = .whole
    · simp [hpath, hsocket, hget, hset, hsend]
    · simp [hpath, hsocket, hget, hset, hsend]
      exact fun hc => hsend hc.sendto

/-- The status is NULL or holds a newline, or there is no memory for the message. -/
def Notifier.Refuses (n : Notifier) (status : Option CString) : Prop :=
  status = none ∨ (∃ s, status = some s ∧ newline ∈ s.bytes) ∨ n.host.allocs.head = false

theorem strchr_holding (s : CString) : ((Buffer.holding s.bytes).strchr 0 newline).isSome ↔ newline ∈ s.bytes := by
  have hat := Buffer.at_holding s.nulFree
  by_cases hmem : newline ∈ s.bytes
  · obtain ⟨before, after, heq, hfree⟩ := List.eq_append_cons_of_mem hmem
    rw [heq] at hat ⊢
    rw [hat.strchr_some hfree]
    simp
  · rw [hat.strchr_none hmem]
    simp [hmem]

/-- The bytes handed to the socket for a status. -/
def Notifier.statusMessage (n : Notifier) (status : CString) : List UInt8 :=
  snprintf (((bytes "STATUS=").length + status.bytes.length + 2) % 2 ^ 64)
    (bytes "STATUS=" ++ status.bytes ++ [newline]) n.leftover

theorem serviceNotifyStatus_cases (path status : Option CString) (n : Notifier) :
    (n.Refuses status ∧ (serviceNotifyStatus path status n).1 = -1 ∧ (serviceNotifyStatus path status n).2.sent = n.sent) ∨
    ∃ s, status = some s ∧ newline ∉ s.bytes ∧ ¬ n.Refuses status ∧
      serviceNotifyStatus path status n = unixDatagramSocketSend path (n.statusMessage s) n.malloc.2 := by
  unfold serviceNotifyStatus
  cases status with
  | none => exact .inl ⟨.inl rfl, rfl, rfl⟩
  | some s =>
    by_cases hline : newline ∈ s.bytes
    · left
      simp only [(strchr_holding s).2 hline, if_true]
      exact ⟨.inr (.inl ⟨s, rfl, hline⟩), trivial, trivial⟩
    have hclear : ¬ ((Buffer.holding s.bytes).strchr 0 newline).isSome := fun hc => hline ((strchr_holding s).1 hc)
    simp only [hclear]
    cases halloc : n.host.allocs.head with
    | false =>
      left
      have hmalloc : n.malloc.1 = false := halloc
      simp only [hmalloc, Bool.false_eq_true, if_false, if_true]
      exact ⟨.inr (.inr halloc), trivial, rfl⟩
    | true =>
      right
      have hmalloc : n.malloc.1 = true := halloc
      refine ⟨s, rfl, hline, ?_, ?_⟩
      · rintro (hc | ⟨t, ht, hmem⟩ | hc)
        · cases hc
        · cases ht
          exact hline hmem
        · rw [halloc] at hc
          cases hc
      · simp only [hmalloc, Bool.false_eq_true, Bool.true_eq_false, if_false]
        rfl

/-- A status that leaves room for `snprintf` to count the message. -/
def NotifyCall.Fits : NotifyCall → Prop
  | .status _ (some s) => s.bytes.length + 8 ≤ intMax
  | _ => True

/-- The line that an accepted call sends. -/
def NotifyCall.line : NotifyCall → List UInt8
  | .ready _ => bytes "READY=1"
  | .stopping _ => bytes "STOPPING=1"
  | .status _ none => []
  | .status _ (some s) => bytes "STATUS=" ++ s.bytes

theorem statusMessage_fits (n : Notifier) {s : CString} (h : s.bytes.length + 8 ≤ intMax) :
    n.statusMessage s = bytes "STATUS=" ++ s.bytes ++ [newline] := by
  have hseven : (bytes "STATUS=").length = 7 := rfl
  have hlength : (bytes "STATUS=" ++ s.bytes ++ [newline]).length = s.bytes.length + 8 := by
    simp only [List.length_append, List.length_singleton, hseven]
    omega
  unfold Notifier.statusMessage snprintf
  rw [if_pos (by omega), List.take_of_length_le]
  unfold intMax at h
  omega

/-- An accepted call sends its line. -/
theorem NotifyCall.exec_sent (call : NotifyCall) (n : Notifier) (hfits : call.Fits) :
    ((call.exec n).1 = 0 ∧ (call.exec n).2.sent = n.sent ++ [call.line ++ [newline]] ∧ newline ∉ call.line ∧
      0 ∉ call.line) ∨
    ((call.exec n).1 = -1 ∧ (call.exec n).2.sent = n.sent) := by
  cases call with
  | ready path =>
    rcases unixDatagramSocketSend_cases path (bytes "READY=1\n") n with ⟨h0, hsent⟩ | ⟨h1, hsent, -⟩
    · exact .inl ⟨h0, hsent, show newline ∉ bytes "READY=1" by decide, show 0 ∉ bytes "READY=1" by decide⟩
    · exact .inr ⟨h1, hsent⟩
  | stopping path =>
    rcases unixDatagramSocketSend_cases path (bytes "STOPPING=1\n") n with ⟨h0, hsent⟩ | ⟨h1, hsent, -⟩
    · exact .inl ⟨h0, hsent, show newline ∉ bytes "STOPPING=1" by decide, show 0 ∉ bytes "STOPPING=1" by decide⟩
    · exact .inr ⟨h1, hsent⟩
  | status path text =>
    show ((serviceNotifyStatus path text n).1 = 0 ∧ (serviceNotifyStatus path text n).2.sent = _ ∧ _) ∨
      ((serviceNotifyStatus path text n).1 = -1 ∧ (serviceNotifyStatus path text n).2.sent = _)
    rcases serviceNotifyStatus_cases path text n with ⟨-, h1, hsent⟩ | ⟨s, rfl, hline, -, hx⟩
    · exact .inr ⟨h1, hsent⟩
    rw [hx, statusMessage_fits n hfits]
    rcases unixDatagramSocketSend_cases path (bytes "STATUS=" ++ s.bytes ++ [newline]) n.malloc.2 with
      ⟨h0, hsent⟩ | ⟨h1, hsent, -⟩
    · refine .inl ⟨h0, hsent, fun hc => ?_, fun hc => ?_⟩
      · rcases List.mem_append.1 hc with hc | hc
        · exact absurd hc (by decide)
        · exact hline hc
      · rcases List.mem_append.1 hc with hc | hc
        · exact absurd hc (by decide)
        · exact s.nulFree hc
    · exact .inr ⟨h1, hsent⟩

/-! ## Reading it back -/

/-- The calls that returned 0. -/
def accepted (log : List (NotifyCall × Int)) : List NotifyCall := (log.filter fun c => c.2 = 0).map Prod.fst

/-- What a status call says. -/
def NotifyCall.text : NotifyCall → Option (List UInt8)
  | .status _ (some s) => some s.bytes
  | _ => none

/-- The accepted calls have sent their lines, in order. -/
theorem notifyAll_sent : ∀ (calls : List NotifyCall) (n : Notifier), (∀ c ∈ calls, c.Fits) →
    (notifyAll calls n).2.sent = n.sent ++ (accepted (notifyAll calls n).1).map (fun c => c.line ++ [newline]) ∧
      ∀ c ∈ accepted (notifyAll calls n).1, newline ∉ c.line ∧ 0 ∉ c.line
  | [], n, _ => by simp [notifyAll, accepted]
  | call :: rest, n, hfits => by
    obtain ⟨hsent, hlines⟩ := notifyAll_sent rest (call.exec n).2 fun c hc => hfits c (List.mem_cons_of_mem _ hc)
    have hlog : (notifyAll (call :: rest) n).1 = (call, (call.exec n).1) :: (notifyAll rest (call.exec n).2).1 := rfl
    have hlast : (notifyAll (call :: rest) n).2 = (notifyAll rest (call.exec n).2).2 := rfl
    rw [hlog, hlast, hsent]
    rcases call.exec_sent n (hfits call List.mem_cons_self) with ⟨h0, hx, hfree⟩ | ⟨h1, hx⟩
    · have hacc : accepted ((call, (call.exec n).1) :: (notifyAll rest (call.exec n).2).1) =
          call :: accepted (notifyAll rest (call.exec n).2).1 := by
        simp [accepted, h0]
      rw [hacc, hx]
      refine ⟨by simp, fun c hc => ?_⟩
      rcases List.mem_cons.1 hc with rfl | hc
      · exact hfree
      · exact hlines c hc
    · have hacc : accepted ((call, (call.exec n).1) :: (notifyAll rest (call.exec n).2).1) =
          accepted (notifyAll rest (call.exec n).2).1 := by
        simp [accepted, h1]
      rw [hacc, hx]
      exact ⟨rfl, hlines⟩

/-- The lines of a stream of messages are the lines sent, and the empty one after the last newline. -/
theorem messageLines_flatten : ∀ (lines : List (List UInt8)), (∀ l ∈ lines, newline ∉ l) →
    messageLines (lines.map (fun l => l ++ [newline])).flatten = lines ++ [[]]
  | [], _ => messageLines_single List.not_mem_nil
  | line :: lines, h => by
    rw [List.map_cons, List.flatten_cons, List.append_assoc, List.singleton_append,
      messageLines_cons (h line List.mem_cons_self), messageLines_flatten lines fun l hl => h l (List.mem_cons_of_mem _ hl)]
    rfl

section Lines

variable {call : NotifyCall}

theorem NotifyCall.line_eq_ready : call.line = bytes "READY=1" ↔ ∃ path, call = .ready path := by
  constructor
  · intro hline
    match call with
    | .ready path => exact ⟨path, rfl⟩
    | .stopping _ => exact absurd hline (show bytes "STOPPING=1" ≠ bytes "READY=1" by decide)
    | .status _ none => exact absurd hline (show [] ≠ bytes "READY=1" by decide)
    | .status _ (some s) => cases congrArg List.head? hline
  · rintro ⟨path, rfl⟩
    rfl

theorem NotifyCall.line_eq_stopping : call.line = bytes "STOPPING=1" ↔ ∃ path, call = .stopping path := by
  constructor
  · intro hline
    match call with
    | .ready _ => exact absurd hline (show bytes "READY=1" ≠ bytes "STOPPING=1" by decide)
    | .stopping path => exact ⟨path, rfl⟩
    | .status _ none => exact absurd hline (show [] ≠ bytes "STOPPING=1" by decide)
    | .status _ (some s) => cases congrArg (fun l : List UInt8 => l[2]?) hline
  · rintro ⟨path, rfl⟩
    rfl

theorem ServiceNotification.noted_line_status (n : ServiceNotification) (call : NotifyCall) :
    (n.noted call.line).status = call.text.or n.status := by
  have hnoted : (n.noted call.line).status =
      if bytes "STATUS=" <+: call.line then some (call.line.drop (bytes "STATUS=").length) else n.status := rfl
  rw [hnoted]
  match call with
  | .ready _ =>
    rw [NotifyCall.line, if_neg (by decide)]
    rfl
  | .stopping _ =>
    rw [NotifyCall.line, if_neg (by decide)]
    rfl
  | .status _ none =>
    rw [NotifyCall.line, if_neg (by decide)]
    rfl
  | .status _ (some s) =>
    rw [NotifyCall.line, if_pos (List.prefix_append _ _), List.drop_left]
    rfl

theorem foldl_lines_status (calls : List NotifyCall) :
    ((calls.map NotifyCall.line).foldl ServiceNotification.noted .cleared).status =
      (calls.filterMap NotifyCall.text).getLast? := by
  induction calls using List.reverseRecOn with
  | nil => rfl
  | append_singleton calls call ih =>
    rw [List.map_append, List.foldl_append, List.map_singleton, List.foldl_cons, List.foldl_nil,
      ServiceNotification.noted_line_status, ih, List.filterMap_append, List.getLast?_append]
    cases htext : call.text with
    | none => simp [htext]
    | some text => simp [htext]

end Lines

/-- The parser on the lines of some calls. -/
theorem parse_lines_of_calls {calls : List NotifyCall} (hlines : ∀ c ∈ calls, newline ∉ c.line) {message : CString}
    (hmessage : message.bytes = ((calls.map NotifyCall.line).map fun l => l ++ [newline]).flatten) {host : Host}
    (hm : host.HasMemory) {fuel : Nat} (hfuel : message.bytes.length < fuel) :
    ∃ notification host', serviceNotificationParse fuel (some message) host = some (some notification, host') ∧
      (notification.ready = true ↔ ∃ path, NotifyCall.ready path ∈ calls) ∧
      (notification.stopping = true ↔ ∃ path, NotifyCall.stopping path ∈ calls) ∧
      notification.status = (calls.filterMap NotifyCall.text).getLast? := by
  obtain ⟨host', hx⟩ := serviceNotificationParse_lines hfuel hm
  -- the newline after the last message leaves an empty line behind it, which says nothing
  have hsplit : messageLines message.bytes = calls.map NotifyCall.line ++ [[]] := by
    rw [hmessage, messageLines_flatten]
    intro l hl
    obtain ⟨c, hc, rfl⟩ := List.mem_map.1 hl
    exact hlines c hc
  have hreads := ServiceNotification.reads_lines (calls.map NotifyCall.line)
  rw [hsplit, List.foldl_append, List.foldl_cons, List.foldl_nil,
    ServiceNotification.noted_of_not_mem List.not_mem_nil] at hx
  refine ⟨_, host', hx, ?_, ?_, foldl_lines_status calls⟩
  · rw [hreads.ready, List.mem_map]
    constructor
    · rintro ⟨c, hc, hline⟩
      obtain ⟨path, rfl⟩ := NotifyCall.line_eq_ready.1 hline
      exact ⟨path, hc⟩
    · rintro ⟨path, hc⟩
      exact ⟨_, hc, rfl⟩
  · rw [hreads.stopping, List.mem_map]
    constructor
    · rintro ⟨c, hc, hline⟩
      obtain ⟨path, rfl⟩ := NotifyCall.line_eq_stopping.1 hline
      exact ⟨path, hc⟩
    · rintro ⟨path, hc⟩
      exact ⟨_, hc, rfl⟩

/-- What `calls` send from `n` on reads back as what the accepted ones said. -/
def Notifier.ReadsBack (n : Notifier) (calls : List NotifyCall) : Prop :=
  ∃ messages, (notifyAll calls n).2.sent = n.sent ++ messages ∧ ∃ hfree : 0 ∉ messages.flatten,
    ∀ (host : Host) (fuel : Nat), host.HasMemory → messages.flatten.length < fuel →
      ∃ notification host', serviceNotificationParse fuel (some ⟨messages.flatten, hfree⟩) host =
          some (some notification, host') ∧
        (notification.ready = true ↔ ∃ path, NotifyCall.ready path ∈ accepted (notifyAll calls n).1) ∧
        (notification.stopping = true ↔ ∃ path, NotifyCall.stopping path ∈ accepted (notifyAll calls n).1) ∧
        notification.status = ((accepted (notifyAll calls n).1).filterMap NotifyCall.text).getLast?

theorem Notifier.readsBack (n : Notifier) {calls : List NotifyCall} (hfits : ∀ c ∈ calls, c.Fits) : n.ReadsBack calls := by
  obtain ⟨hsent, hlines⟩ := notifyAll_sent calls n hfits
  unfold Notifier.ReadsBack
  generalize accepted (notifyAll calls n).1 = said at hsent hlines ⊢
  have hmap : said.map (fun c => c.line ++ [newline]) = (said.map NotifyCall.line).map fun l => l ++ [newline] := by
    rw [List.map_map]
    rfl
  rw [hmap] at hsent
  have hfree : 0 ∉ ((said.map NotifyCall.line).map fun l => l ++ [newline]).flatten := by
    intro hc
    obtain ⟨m, hm, h0⟩ := List.mem_flatten.1 hc
    obtain ⟨l, hl, rfl⟩ := List.mem_map.1 hm
    obtain ⟨c, hc, rfl⟩ := List.mem_map.1 hl
    rcases List.mem_append.1 h0 with h0 | h0
    · exact (hlines c hc).2 h0
    · exact absurd h0 (by decide)
  refine ⟨_, hsent, hfree, fun host fuel hm hfuel => ?_⟩
  exact parse_lines_of_calls (fun c hc => (hlines c hc).1) rfl hm hfuel

/-- Every stream of notifications reads back as what the accepted calls said; and a status call sends
nothing exactly when it refuses the status, socket errors aside. -/
theorem notifications_read_back (n : Notifier) :
    (∀ calls : List NotifyCall, (∀ c ∈ calls, c.Fits) → n.ReadsBack calls) ∧
    ∀ path status : Option CString,
      (n.Refuses status → (serviceNotifyStatus path status n).2.sent = n.sent) ∧
      (n.Works path → ((serviceNotifyStatus path status n).2.sent = n.sent ↔ n.Refuses status)) := by
  refine ⟨fun calls hfits => n.readsBack hfits, fun path status => ?_⟩
  rcases serviceNotifyStatus_cases path status n with ⟨hrefused, -, hsent⟩ | ⟨s, rfl, -, hrefused, hx⟩
  · exact ⟨fun _ => hsent, fun _ => iff_of_true hsent hrefused⟩
  · refine ⟨fun hc => absurd hc hrefused, fun hworks => iff_of_false ?_ hrefused⟩
    rw [hx]
    rcases unixDatagramSocketSend_cases path (n.statusMessage s) n.malloc.2 with ⟨-, hsent⟩ | ⟨-, -, hno⟩
    · rw [hsent]
      exact fun hc => absurd (congrArg List.length hc) (by simp [Notifier.malloc])
    · exact absurd ⟨hworks.path, hworks.socket, hworks.getfd, hworks.setfd, hworks.sendto⟩ hno

/-- A program with memory and a working socket; a failed `snprintf` leaves the beginning of the
message. -/
def readyNotifier : Notifier where
  host := .generous [] [] 0
  sockets := fun _ => true
  fcntls := fun _ => true
  sends := fun _ => .whole
  leftover := ⟨bytes "STATUS=", by decide⟩
  sent := []

def notifyPath : Option CString := some ⟨bytes "/run/notify", by decide⟩

theorem readyNotifier_works : readyNotifier.Works notifyPath := ⟨⟨_, rfl, by decide⟩, rfl, rfl, rfl, rfl⟩

/-- A status that looks like another key and an empty one. -/
def statusCalls : List NotifyCall :=
  [.status notifyPath (some ⟨bytes "READY=1", by decide⟩), .stopping notifyPath, .status notifyPath (some ⟨[], by decide⟩)]

theorem notifications_read_back_statusCalls :
    readyNotifier.ReadsBack statusCalls ∧
      ((serviceNotifyStatus notifyPath none readyNotifier).2.sent = [] ↔ readyNotifier.Refuses none) := by
  refine ⟨(notifications_read_back readyNotifier).1 statusCalls fun c hc => ?_,
    ((notifications_read_back readyNotifier).2 notifyPath none).2 readyNotifier_works⟩
  simp only [statusCalls, List.mem_cons, List.not_mem_nil, or_false] at hc
  rcases hc with rfl | rfl | rfl
  · show 7 + 8 ≤ intMax
    decide
  · trivial
  · show 0 + 8 ≤ intMax
    decide

/-- The program without memory. -/
def starvedNotifier : Notifier := { readyNotifier with host := { Host.generous [] [] 0 with allocs := fun _ => false } }

/-- Of a status that is too long for `snprintf` something else is sent and read back. -/
theorem not_readsBack_long {s : CString} (hline : newline ∉ s.bytes) (hlong : intMax < s.bytes.length + 8) :
    ¬ readyNotifier.ReadsBack [.status notifyPath (some s)] := by
  -- too long to be counted: what is sent is what `snprintf` left in the buffer
  have hmessage : readyNotifier.statusMessage s = bytes "STATUS=" := by
    have hseven : (bytes "STATUS=").length = 7 := rfl
    unfold Notifier.statusMessage snprintf
    rw [if_neg]
    · rfl
    · simp only [List.length_append, List.length_singleton, hseven]
      omega
  have hexec : serviceNotifyStatus notifyPath (some s) readyNotifier =
      unixDatagramSocketSend notifyPath (bytes "STATUS=") readyNotifier.malloc.2 := by
    rcases serviceNotifyStatus_cases notifyPath (some s) readyNotifier with ⟨hrefused, -⟩ | ⟨t, ht, -, -, hx⟩
    · rcases hrefused with hc | ⟨t, ht, hc⟩ | hc
      · cases hc
      · cases ht
        exact absurd hc hline
      · cases hc
    · cases ht
      rw [hx, hmessage]
  have hall : notifyAll [.status notifyPath (some s)] readyNotifier =
      ([(.status notifyPath (some s), 0)],
        (unixDatagramSocketSend notifyPath (bytes "STATUS=") readyNotifier.malloc.2).2) := by
    show ([(_, (serviceNotifyStatus notifyPath (some s) readyNotifier).1)],
      (serviceNotifyStatus notifyPath (some s) readyNotifier).2) = _
    rw [hexec]
    rfl
  rintro ⟨messages, hsent, hfree, hparse⟩
  rw [hall] at hsent hparse
  have hmessages : messages = [bytes "STATUS="] := hsent.symm
  subst hmessages
  obtain ⟨notification, host', hx, -, -, hstatus⟩ := hparse (.generous [] [] 0) 80 (fun _ => rfl) (by decide)
  have hread : (serviceNotificationParse 80 (some ⟨bytes "STATUS=", by decide⟩) (.generous [] [] 0)).map Prod.fst =
      some (some ⟨false, false, some []⟩) := by decide +kernel
  have hempty : some (some notification) = some (some ⟨false, false, some []⟩) :=
    (congrArg (Option.map Prod.fst) hx).symm.trans hread
  cases hempty
  have htext : some [] = some s.bytes := hstatus
  rw [← Option.some.inj htext] at hlong
  exact absurd hlong (by decide)

/-- More bytes than an `int` counts. -/
def longStatus : CString := ⟨List.replicate (2 ^ 31) 97, fun hc => by cases List.eq_of_mem_replicate hc⟩

/-- Without memory a good status is not sent and nothing is read, and a very long status does not come
back. -/
theorem notifications_lost :
    (starvedNotifier.Works notifyPath ∧
      (serviceNotifyStatus notifyPath (some ⟨[], by decide⟩) starvedNotifier).2.sent = starvedNotifier.sent) ∧
    (serviceNotificationParse 80 (some ⟨bytes "READY=1\n", by decide⟩) starvedNotifier.host).map Prod.fst = some none ∧
    newline ∉ longStatus.bytes ∧ ¬ readyNotifier.ReadsBack [.status notifyPath (some longStatus)] := by
  have hline : newline ∉ longStatus.bytes := fun hc => by cases List.eq_of_mem_replicate hc
  have hlength : longStatus.bytes.length = 2 ^ 31 := List.length_replicate
  refine ⟨⟨⟨⟨_, rfl, by decide⟩, rfl, rfl, rfl, rfl⟩, by decide⟩, by decide +kernel, hline, not_readsBack_long hline ?_⟩
  rw [hlength]
  decide

end EmblaOs
