/-
The memory of a notification (service_notify.c). The parser works on a copy of the message that it gives
back, and each STATUS line gives back the text of the one before it gets memory for its own. However
memory runs out, no block is lost or given back twice, the flags are those of the message, and what can
be missing is the status; an earlier status never stands for a later one.
-/
import EmblaOs.Memory.Config
import EmblaOs.Service.Notify

namespace EmblaOs.Memory

open Lib

/-- A string in a block. -/
structure Text where
  block : Block
  bytes : List UInt8

/-- `struct ServiceNotification` at its address. -/
structure Notification where
  block : Block
  ready : Bool
  stopping : Bool
  status : Option Text

def textBlocks : Option Text → Multiset Block
  | none => 0
  | some text => {text.block}

namespace Notification

/-- What a notification keeps allocated. -/
def blocks (n : Notification) : Multiset Block := {n.block} + textBlocks n.status

/-- What can be read of it. -/
def value (n : Notification) : ServiceNotification := ⟨n.ready, n.stopping, n.status.map Text.bytes⟩

end Notification

/-- `embla_strdup` on bytes. -/
def strdupBytes (string : List UInt8) (mem : Mem) : Option Text × Mem :=
  match mem.acquire with
  | (none, mem) => (none, mem)
  | (some block, mem) => (some ⟨block, string⟩, mem)

/-- `free` of a text, which may be NULL. -/
def freeText : Option Text → Mem → Mem
  | none, mem => mem
  | some text, mem => mem.release text.block

def serviceNotificationApplyLine (notification : Notification) (line : Nat) (b : Buffer) (mem : Mem) :
    Notification × Buffer × Mem :=
  match b.strchr line equalsSign with
  | none => (notification, b, mem)
  | some equals =>
    let b := b.write equals 0
    let key := b.stringAt line
    let value := b.stringAt (equals + 1)
    if strcmp key (bytes "READY") = 0 then
      (if strcmp value (bytes "1") = 0 then { notification with ready := true } else notification, b, mem)
    else if strcmp key (bytes "STOPPING") = 0 then
      (if strcmp value (bytes "1") = 0 then { notification with stopping := true } else notification, b, mem)
    else if strcmp key (bytes "STATUS") = 0 then
      let mem := freeText notification.status mem
      let (copy, mem) := strdupBytes value mem
      ({ notification with status := copy }, b, mem)
    else (notification, b, mem)

/-- The loop over the tokens of the working copy; `none` when it has not ended after `fuel` rounds. -/
def parseLoop : Nat → Notification → Option Nat × Nat × Buffer → Mem → Option (Notification × Mem)
  | 0, _, _, _ => none
  | _ + 1, notification, (none, _, _), mem => some (notification, mem)
  | fuel + 1, notification, (some line, saveptr, b), mem =>
    let (notification, b, mem) := serviceNotificationApplyLine notification line b mem
    parseLoop fuel notification (b.strtokR [newline] saveptr) mem

def serviceNotificationParse (fuel : Nat) (message : Option CString) (mem : Mem) : Option (Option Notification × Mem) :=
  match message with
  | none => some (none, mem)
  | some message =>
    match mem.acquire with
    | (none, mem) => some (none, mem)
    | (some block, mem) =>
      match strdupBytes message.bytes mem with
      | (none, mem) => some (none, mem.release block)
      | (some workingCopy, mem) =>
        (parseLoop fuel ⟨block, false, false, none⟩ ((Buffer.holding workingCopy.bytes).strtokR [newline] 0) mem).map
          fun (notification, mem) => (some notification, mem.release workingCopy.block)

def serviceNotificationDestroy (notification : Notification) (mem : Mem) : Mem :=
  (freeText notification.status mem).release notification.block

/-! ## Short of memory -/

/-- `n` says what `full` says, but perhaps no status. -/
def Short (n full : ServiceNotification) : Prop := n = full ∨ n = { full with status := none }

/-- A status line makes up for a status that was missing; any other line leaves it missing. -/
theorem Short.noted {n full : ServiceNotification} (h : Short n full) (line : List UInt8) :
    Short (n.noted line) (full.noted line) := by
  rcases h with rfl | rfl
  · exact .inl rfl
  · unfold ServiceNotification.noted
    by_cases hstatus : bytes "STATUS=" <+: line
    · simp only [if_pos hstatus]
      exact .inl rfl
    · simp only [if_neg hstatus]
      exact .inr rfl

theorem Short.foldl (lines : List (List UInt8)) {n full : ServiceNotification} (h : Short n full) :
    Short (lines.foldl ServiceNotification.noted n) (lines.foldl ServiceNotification.noted full) := by
  induction lines generalizing n full with
  | nil => exact h
  | cons line lines ih => exact ih (h.noted line)

theorem Short.trans {a b c : ServiceNotification} (h : Short a b) (h' : Short b c) : Short a c := by
  rcases h with rfl | rfl
  · exact h'
  · rcases h' with rfl | rfl <;> exact .inr rfl

/-- From `n` and its blocks to `n'` and its blocks, with what `full` says if nothing was refused. -/
structure Reaches (r : Multiset Block) (k : Nat) (n : Notification) (full : ServiceNotification) (n' : Notification)
    (mem' : Mem) (k' : Nat) : Prop where
  holds : mem'.Holds (n'.blocks + r) k'
  refusals : k ≤ k'
  short : Short n'.value full
  full : k' = k → n'.value = full
  block : n'.block = n.block

section Parse

variable {b : Buffer} {p : Nat} {mem : Mem} {r : Multiset Block} {k : Nat}

theorem freeText_holds {text : Option Text} (h : mem.Holds (textBlocks text + r) k) : (freeText text mem).Holds r k := by
  cases text with
  | none => exact h.congr (zero_add r)
  | some text => exact h.release

theorem strdupBytes_gets (string : List UInt8) (h : mem.Holds r k) :
    (∃ mem', strdupBytes string mem = (none, mem') ∧ mem'.Holds r (k + 1)) ∨
      ∃ block mem', strdupBytes string mem = (some ⟨block, string⟩, mem') ∧ mem'.Holds ({block} + r) k := by
  unfold strdupBytes
  rcases h.acquire with ⟨mem', hx, h'⟩ | ⟨block, mem', hx, h'⟩ <;> rw [hx]
  · exact .inl ⟨mem', rfl, h'⟩
  · exact .inr ⟨block, mem', rfl, h'⟩

/-- A line that gets no memory and gives none back. -/
theorem Reaches.plain {n n' : Notification} {full : ServiceNotification} (h : mem.Holds (n.blocks + r) k)
    (hblock : n'.block = n.block) (hstatus : n'.status = n.status) (hvalue : n'.value = full) :
    Reaches r k n full n' mem k := by
  refine ⟨h.congr ?_, le_refl k, .inl hvalue, fun _ => hvalue, hblock⟩
  unfold Notification.blocks
  rw [hblock, hstatus]

/-- A line is read as what it means, or as a status that is missing, and nothing is written behind it. -/
theorem applyLine_reaches {line : Nat} {text : List UInt8} (h : b.At line text) (n : Notification)
    (hm : mem.Holds (n.blocks + r) k) :
    ∃ n' b' mem' k', serviceNotificationApplyLine n line b mem = (n', b', mem') ∧
      Reaches r k n (n.value.noted text) n' mem' k' ∧
      ∀ q s, line + text.length ≤ q → b.At q s → b'.At q s := by
  unfold serviceNotificationApplyLine
  by_cases hmem : equalsSign ∈ text
  swap
  · rw [h.strchr_none hmem, ServiceNotification.noted_of_not_mem hmem]
    exact ⟨n, b, mem, k, rfl, .plain hm rfl rfl rfl, fun _ _ _ hs => hs⟩
  obtain ⟨key, value, rfl, hkey⟩ := List.eq_append_cons_of_mem hmem
  rw [h.strchr_some hkey]
  have hframe : ∀ q s, line + (key ++ equalsSign :: value).length ≤ q → b.At q s →
      (b.write (line + key.length) 0).At q s := by
    intro q s hq hs
    rw [List.length_append, List.length_cons] at hq
    exact hs.frame (by omega)
  simp only [h.cut.stringAt, h.cut_rest.stringAt, strcmp_eq_zero]
  rw [ServiceNotification.noted_keyed hkey n.value]
  -- the three keys, and any other
  by_cases hready : key = bytes "READY"
  · subst hready
    simp only [if_true, show bytes "READY" ≠ bytes "STOPPING" by decide, show bytes "READY" ≠ bytes "STATUS" by decide,
      false_and, true_and, decide_false, Bool.or_false, if_false]
    refine ⟨_, _, mem, k, rfl, .plain hm ?_ ?_ ?_, hframe⟩ <;> by_cases hone : value = bytes "1" <;>
      simp [hone, Notification.value]
  by_cases hstopping : key = bytes "STOPPING"
  · subst hstopping
    simp only [hready, if_true, show bytes "STOPPING" ≠ bytes "STATUS" by decide,
      false_and, true_and, decide_false, Bool.or_false, if_false]
    refine ⟨_, _, mem, k, rfl, .plain hm ?_ ?_ ?_, hframe⟩ <;> by_cases hone : value = bytes "1" <;>
      simp [hone, Notification.value]
  by_cases hstatus : key = bytes "STATUS"
  · subst hstatus
    simp only [hready, hstopping, if_true, false_and, decide_false, Bool.or_false, if_false]
    -- the text before goes back first
    have hfreed : (freeText n.status mem).Holds ({n.block} + r) k := by
      refine freeText_holds (hm.congr ?_)
      unfold Notification.blocks
      abel
    rcases strdupBytes_gets value hfreed with ⟨mem', hx, hm'⟩ | ⟨block, mem', hx, hm'⟩ <;> rw [hx]
    · refine ⟨_, _, mem', k + 1, rfl, ⟨?_, Nat.le_succ k, .inr rfl, fun hc => absurd hc (Nat.succ_ne_self k), rfl⟩, hframe⟩
      refine hm'.congr ?_
      unfold Notification.blocks
      simp [textBlocks]
    · refine ⟨_, _, mem', k, rfl, ⟨?_, le_refl k, .inl rfl, fun _ => rfl, rfl⟩, hframe⟩
      refine hm'.congr ?_
      unfold Notification.blocks
      simp only [textBlocks]
      abel
  · simp only [hready, hstopping, hstatus, false_and, decide_false, Bool.or_false, if_false]
    exact ⟨n, _, mem, k, rfl, .plain hm rfl rfl rfl, hframe⟩

/-- One line, and the rest. -/
theorem Reaches.step {n n₁ n₂ : Notification} {mem₁ mem₂ : Mem} {k₁ k₂ : Nat} {line : List UInt8}
    {lines : List (List UInt8)} (h : Reaches r k n (n.value.noted line) n₁ mem₁ k₁)
    (h' : Reaches r k₁ n₁ (lines.foldl ServiceNotification.noted n₁.value) n₂ mem₂ k₂) :
    Reaches r k n ((line :: lines).foldl ServiceNotification.noted n.value) n₂ mem₂ k₂ := by
  refine ⟨h'.holds, h.refusals.trans h'.refusals, h'.short.trans (.foldl lines h.short), fun hk => ?_,
    h'.block.trans h.block⟩
  -- nothing was refused on the way
  have h₁ : k₁ = k := le_antisymm (hk ▸ h'.refusals) h.refusals
  rw [h'.full (hk.trans h₁.symm), h.full h₁]
  rfl

/-- The loop goes through the lines of what is left. -/
theorem parseLoop_reaches : ∀ (fuel : Nat) (n : Notification) (p : Nat) (b : Buffer) (rest : List UInt8) (mem : Mem)
    (k : Nat), b.At p rest → rest.length < fuel → mem.Holds (n.blocks + r) k →
      ∃ n' mem' k', parseLoop fuel n (b.strtokR [newline] p) mem = some (n', mem') ∧
        Reaches r k n ((messageLines rest).foldl ServiceNotification.noted n.value) n' mem' k'
  | 0, _, _, _, _, _, _, _, hfuel, _ => absurd hfuel (Nat.not_lt_zero _)
  | fuel + 1, n, p, b, rest, mem, k, h, hfuel, hm => by
    -- delimiters, a token without any, and the rest from the next delimiter on
    obtain ⟨seps, text, rfl, hseps, htext⟩ := Buffer.exists_span (· ∈ [newline]) rest
    rw [foldl_noted_skip text seps n.value hseps]
    rcases eq_or_ne text [] with rfl | hne
    · rw [List.append_nil] at h
      have hnone := Buffer.strtokR_none h hseps
      rcases hx : b.strtokR [newline] p with ⟨line, saveptr, b'⟩
      rw [hx] at hnone
      obtain rfl : line = none := hnone
      refine ⟨n, mem, k, rfl, .plain hm rfl rfl ?_⟩
      rw [messageLines_single List.not_mem_nil, List.foldl_cons, ServiceNotification.noted_of_not_mem List.not_mem_nil]
      rfl
    obtain ⟨token, tail, rfl, htoken, htail⟩ := Buffer.exists_span (· ∉ [newline]) text
    have hstarts : token ≠ [] := by
      rintro rfl
      obtain ⟨x, tail, rfl⟩ := List.exists_cons_of_ne_nil hne
      exact htail x rfl (htext x rfl)
    have hlen : 0 < token.length := List.length_pos_of_ne_nil hstarts
    have hfree : newline ∉ token := fun hc => htoken _ hc List.mem_cons_self
    simp only [List.length_append] at hfuel
    cases tail with
    | nil =>
      have hline : b.At (p + seps.length) token := by simpa using h.skip
      have hend : b.At (p + seps.length + token.length) [] := h.skip.skip
      obtain ⟨n₁, b', mem₁, k₁, hx, hr, hframe⟩ := applyLine_reaches hline n hm
      obtain ⟨n₂, mem₂, k₂, hloop, hr'⟩ := parseLoop_reaches fuel n₁ _ b' [] mem₁ k₁ (hframe _ _ (Nat.le_refl _) hend)
        (by simp only [List.length_nil]; omega) hr.holds
      refine ⟨n₂, mem₂, k₂, ?_, ?_⟩
      · rw [List.append_nil] at h
        rw [Buffer.strtokR_last hseps htoken hstarts h]
        simp only [parseLoop, hx, hloop]
      · rw [List.append_nil, messageLines_single hfree]
        rw [messageLines_single List.not_mem_nil, List.foldl_cons,
          ServiceNotification.noted_of_not_mem List.not_mem_nil] at hr'
        exact hr.step hr'
    | cons d tail =>
      obtain rfl : d = newline := by
        have hd := htail d rfl
        simpa using hd
      obtain ⟨n₁, b', mem₁, k₁, hx, hr, hframe⟩ := applyLine_reaches h.skip.cut n hm
      obtain ⟨n₂, mem₂, k₂, hloop, hr'⟩ := parseLoop_reaches fuel n₁ _ b' tail mem₁ k₁
        (hframe _ _ (Nat.le_succ _) h.skip.cut_rest) (by simp only [List.length_cons] at hfuel; omega) hr.holds
      refine ⟨n₂, mem₂, k₂, ?_, ?_⟩
      · rw [Buffer.strtokR_more hseps htoken hstarts h List.mem_cons_self]
        simp only [parseLoop, hx, hloop]
      · rw [messageLines_cons hfree]
        exact hr.step hr'

theorem serviceNotificationDestroy_holds {n : Notification} (h : mem.Holds (n.blocks + r) k) :
    (serviceNotificationDestroy n mem).Holds r k := by
  refine Ledger.Holds.release (freeText_holds (h.congr ?_))
  unfold Notification.blocks
  abel

/-- What a parse leaves: nothing for want of memory, or a notification that holds its own blocks and says
what `full` says, all of it if nothing was refused; destroyed, it gives back everything. -/
inductive Parsed (r : Multiset Block) (k : Nat) (full : ServiceNotification) : Option Notification × Mem → Prop
  | refused (mem' : Mem) (k' : Nat) (hk : k < k') (h : mem'.Holds r k') : Parsed r k full (none, mem')
  | parsed (n : Notification) (mem' : Mem) (k' : Nat) (hk : k ≤ k') (h : mem'.Holds (n.blocks + r) k')
      (hshort : Short n.value full) (hfull : k' = k → n.value = full)
      (hdestroy : (serviceNotificationDestroy n mem').Holds r k') : Parsed r k full (some n, mem')

/-- A parse, with what the lines of its message mean one after the other. -/
theorem serviceNotificationParse_parsed (message : CString) (h : mem.Holds r k) {fuel : Nat}
    (hfuel : message.bytes.length < fuel) :
    ∃ out, serviceNotificationParse fuel (some message) mem = some out ∧
      Parsed r k ((messageLines message.bytes).foldl ServiceNotification.noted .cleared) out := by
  unfold serviceNotificationParse
  rcases h.acquire with ⟨mem₁, hx, h₁⟩ | ⟨block, mem₁, hx, h₁⟩ <;> simp only [hx]
  · exact ⟨_, rfl, .refused mem₁ _ (Nat.lt_succ_self k) h₁⟩
  rcases strdupBytes_gets message.bytes h₁ with ⟨mem₂, hy, h₂⟩ | ⟨copy, mem₂, hy, h₂⟩ <;> simp only [hy]
  · exact ⟨_, rfl, .refused _ _ (Nat.lt_succ_self k) h₂.release⟩
  have hstart : mem₂.Holds (Notification.blocks ⟨block, false, false, none⟩ + ({copy} + r)) k := by
    refine h₂.congr ?_
    unfold Notification.blocks
    simp only [textBlocks]
    abel
  obtain ⟨n, mem₃, k₃, hloop, hr⟩ := parseLoop_reaches fuel ⟨block, false, false, none⟩ 0 _ message.bytes mem₂ k
    (Buffer.at_holding message.nulFree) hfuel hstart
  have hback : (mem₃.release copy).Holds (n.blocks + r) k₃ := Ledger.Holds.release (hr.holds.congr (by abel))
  refine ⟨_, by rw [hloop]; rfl, ?_⟩
  exact .parsed n _ k₃ hr.refusals hback hr.short hr.full (serviceNotificationDestroy_holds hback)

/-- For every message and however memory runs out the parser comes back, having given back its working
copy: with NULL and nothing kept, or with a notification that says what the message says, but perhaps no
status. -/
theorem notification_memory (message : CString) (h : mem.Holds r k) (fuel : Nat) (hfuel : message.bytes.length < fuel) :
    ∃ full out, full.Reads (messageLines message.bytes) ∧ serviceNotificationParse fuel (some message) mem = some out ∧
      Parsed r k full out := by
  obtain ⟨out, hx, hparsed⟩ := serviceNotificationParse_parsed message h hfuel
  exact ⟨_, out, ServiceNotification.reads_lines (messageLines message.bytes), hx, hparsed⟩

end Parse

/-- The copy of the last status is refused. -/
theorem notification_memory_refused :
    ∃ full out, full.Reads (messageLines busyMessage.bytes) ∧
      serviceNotificationParse 80 (some busyMessage) (freshMem 3) = some out ∧ Parsed 0 0 full out :=
  notification_memory busyMessage (freshMem_holds 3) 80 (by decide)

example : (serviceNotificationParse 80 (some busyMessage) (freshMem 3)).map (fun out => out.1.map Notification.value) =
    some (some ⟨true, false, none⟩) := by decide +kernel

end EmblaOs.Memory
