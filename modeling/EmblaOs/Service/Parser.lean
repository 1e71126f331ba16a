/-
The parser of service_notify.c read without addresses and with them. A memory that grants what the host
grants takes both to the same notification, whatever is refused, so what a message is read as follows
from what is known of its memory.
-/
import EmblaOs.Memory.Notification

namespace EmblaOs

open Lib
open Memory (Mem Notification Text)

/-! ## The host and its memory -/

/-- `mem` grants what `host` grants, at addresses that nobody holds. -/
def Grants (host : Host) (mem : Mem) : Prop :=
  ∃ next, (∀ a ∈ mem.held, a < next) ∧ ∀ i, mem.offers i = if host.allocs i then some (next + i) else none

/-- A memory that grants what `host` grants. -/
def Host.memory (host : Host) : Mem := ⟨[], fun i => if host.allocs i then some i else none, 0, 0⟩

theorem Host.memory_holds (host : Host) : host.memory.Holds 0 0 := ⟨rfl, Multiset.nodup_zero, rfl, rfl⟩

theorem Host.grants_memory (host : Host) : Grants host host.memory := by
  refine ⟨0, fun a ha => absurd ha List.not_mem_nil, fun i => ?_⟩
  rw [Nat.zero_add]
  rfl

/-- No allocation fails. -/
def Host.HasMemory (h : Host) : Prop := ∀ n, h.allocs n = true

theorem Host.HasMemory.malloc {h : Host} (hm : h.HasMemory) : h.malloc.1 = true ∧ h.malloc.2.HasMemory :=
  ⟨hm 0, fun n => hm (n + 1)⟩

/-- From `host` and `mem` to `host'` and `mem'`, the one granting what the other grants; a host with memory
refuses nothing on the way. -/
structure Alike (host : Host) (mem : Mem) (host' : Host) (mem' : Mem) : Prop where
  grants : Grants host' mem'
  spared : host.HasMemory → host'.HasMemory ∧ mem'.refusals = mem.refusals

section Alike

variable {host host₁ host₂ : Host} {mem mem₁ mem₂ : Mem}

theorem Alike.refl (h : Grants host mem) : Alike host mem host mem := ⟨h, fun hm => ⟨hm, rfl⟩⟩

theorem Alike.trans (h : Alike host mem host₁ mem₁) (h' : Alike host₁ mem₁ host₂ mem₂) : Alike host mem host₂ mem₂ := by
  refine ⟨h'.grants, fun hm => ?_⟩
  obtain ⟨hm₁, hsame⟩ := h.spared hm
  obtain ⟨hm₂, hsame'⟩ := h'.spared hm₁
  exact ⟨hm₂, hsame'.trans hsame⟩

theorem Alike.release (h : Alike host mem host₁ mem₁) (a : Memory.Block) : Alike host mem host₁ (mem₁.release a) := by
  obtain ⟨⟨next, hheld, hoffers⟩, hspared⟩ := h
  unfold Ledger.release
  by_cases ha : a ∈ mem₁.held
  · rw [if_pos ha]
    exact ⟨⟨next, fun b hb => hheld b (List.mem_of_mem_erase hb), hoffers⟩, hspared⟩
  · rw [if_neg ha]
    exact ⟨⟨next, hheld, hoffers⟩, hspared⟩

/-- Both get memory or neither does. -/
theorem Grants.acquire (h : Grants host mem) :
    ∃ block mem', mem.acquire = (block, mem') ∧ block.isSome = host.malloc.1 ∧ Alike host mem host.malloc.2 mem' := by
  obtain ⟨next, hheld, hoffers⟩ := h
  have hhead : mem.offers.head = if host.allocs 0 then some next else none := hoffers 0
  have htail : ∀ i, mem.offers.tail i = if host.malloc.2.allocs i then some (next + 1 + i) else none := by
    intro i
    rw [Nat.add_right_comm]
    exact hoffers (i + 1)
  unfold Ledger.acquire
  cases hgrant : host.allocs 0 with
  | true =>
    rw [hgrant, if_pos rfl] at hhead
    have hfree : next ∉ mem.held := fun hc => Nat.lt_irrefl next (hheld next hc)
    simp only [hhead, if_neg hfree]
    refine ⟨_, _, rfl, hgrant.symm, ⟨next + 1, fun a ha => ?_, htail⟩, fun hm => ⟨hm.malloc.2, rfl⟩⟩
    rcases List.mem_cons.1 ha with rfl | ha
    · exact Nat.lt_succ_self _
    · exact Nat.lt_succ_of_lt (hheld a ha)
  | false =>
    rw [hgrant, if_neg Bool.false_ne_true] at hhead
    simp only [hhead]
    refine ⟨_, _, rfl, hgrant.symm, ⟨next + 1, fun a ha => Nat.lt_succ_of_lt (hheld a ha), htail⟩, fun hm => ?_⟩
    exact absurd (hm 0) (by rw [hgrant]; exact Bool.false_ne_true)

theorem freeText_alike (h : Grants host mem) (text : Option Text) : Alike host mem host (Memory.freeText text mem) := by
  cases text with
  | none => exact .refl h
  | some text => exact (Alike.refl h).release text.block

theorem strdup_alike (h : Grants host mem) (string : List UInt8) :
    ∃ copy mem', Memory.strdupBytes string mem = (copy, mem') ∧
      emblaStrdup string host = (copy.map Text.bytes, host.malloc.2) ∧ Alike host mem host.malloc.2 mem' := by
  obtain ⟨block, mem', hx, hsome, halike⟩ := h.acquire
  unfold Memory.strdupBytes emblaStrdup
  cases block with
  | none => exact ⟨none, mem', by rw [hx], by simp only [← hsome]; rfl, halike⟩
  | some block => exact ⟨some ⟨block, string⟩, mem', by rw [hx], by simp only [← hsome]; rfl, halike⟩

/-! ## The parser -/

theorem applyLine_alike (h : Grants host mem) (n : Notification) (line : Nat) (b : Buffer) :
    ∃ n' b' mem' host', Memory.serviceNotificationApplyLine n line b mem = (n', b', mem') ∧
      serviceNotificationApplyLine n.value line b host = (n'.value, b', host') ∧ Alike host mem host' mem' := by
  unfold Memory.serviceNotificationApplyLine serviceNotificationApplyLine
  cases b.strchr line equalsSign with
  | none => exact ⟨n, b, mem, host, rfl, rfl, .refl h⟩
  | some equals =>
    simp only
    generalize b.write equals 0 = b
    generalize b.stringAt line = key
    generalize b.stringAt (equals + 1) = value
    -- the three keys, and any other
    by_cases hready : strcmp key (bytes "READY") = 0
    · simp only [if_pos hready]
      refine ⟨_, b, mem, host, rfl, ?_, .refl h⟩
      split <;> rfl
    by_cases hstopping : strcmp key (bytes "STOPPING") = 0
    · simp only [if_neg hready, if_pos hstopping]
      refine ⟨_, b, mem, host, rfl, ?_, .refl h⟩
      split <;> rfl
    by_cases hstatus : strcmp key (bytes "STATUS") = 0
    · simp only [if_neg hready, if_neg hstopping, if_pos hstatus]
      have hfreed := freeText_alike h n.status
      obtain ⟨copy, mem', hx, hy, halike⟩ := strdup_alike hfreed.grants value
      rw [hx, hy]
      exact ⟨_, b, mem', _, rfl, rfl, hfreed.trans halike⟩
    · simp only [if_neg hready, if_neg hstopping, if_neg hstatus]
      exact ⟨n, b, mem, host, rfl, rfl, .refl h⟩

theorem parseLoop_alike : ∀ (fuel : Nat) (n : Notification) (token : Option Nat × Nat × Buffer) {mem : Mem}
    {host : Host} {n' : Notification} {mem' : Mem}, Grants host mem →
      Memory.parseLoop fuel n token mem = some (n', mem') →
      ∃ host', parseLoop fuel n.value token host = some (n'.value, host') ∧ Alike host mem host' mem'
  | 0, _, _, _, _, _, _, _, hx => absurd hx (by simp [Memory.parseLoop])
  | _ + 1, n, (none, _, _), mem, host, _, _, h, hx => by
    simp only [Memory.parseLoop, Option.some.injEq, Prod.mk.injEq] at hx
    obtain ⟨rfl, rfl⟩ := hx
    exact ⟨host, rfl, .refl h⟩
  | fuel + 1, n, (some line, saveptr, b), mem, host, n', mem', h, hx => by
    obtain ⟨n₁, b₁, mem₁, host₁, hline, hline', halike⟩ := applyLine_alike h n line b
    simp only [Memory.parseLoop, hline] at hx
    obtain ⟨host', hloop, hrest⟩ := parseLoop_alike fuel n₁ _ halike.grants hx
    refine ⟨host', ?_, halike.trans hrest⟩
    simp only [parseLoop, hline', hloop]

/-- Whatever is refused, the parser without addresses returns what the one with them returns. -/
theorem serviceNotificationParse_alike {fuel : Nat} {message : Option CString} {out : Option Notification} {mem' : Mem}
    (h : Grants host mem) (hx : Memory.serviceNotificationParse fuel message mem = some (out, mem')) :
    ∃ host', serviceNotificationParse fuel message host = some (out.map Notification.value, host') ∧
      Alike host mem host' mem' := by
  cases message with
  | none =>
    simp only [Memory.serviceNotificationParse, Option.some.injEq, Prod.mk.injEq] at hx
    obtain ⟨rfl, rfl⟩ := hx
    exact ⟨host, rfl, .refl h⟩
  | some message =>
    obtain ⟨block, mem₁, hacquire, hsome, halike⟩ := h.acquire
    unfold Memory.serviceNotificationParse at hx
    unfold serviceNotificationParse
    simp only [hacquire] at hx
    simp only [← hsome]
    cases block with
    | none =>
      simp only [Option.some.injEq, Prod.mk.injEq] at hx
      obtain ⟨rfl, rfl⟩ := hx
      exact ⟨_, rfl, halike⟩
    | some block =>
      obtain ⟨copy, mem₂, hstrdup, hstrdup', hcopied⟩ := strdup_alike halike.grants message.bytes
      simp only [hstrdup] at hx
      simp only [hstrdup']
      have hstart := halike.trans hcopied
      cases copy with
      | none =>
        simp only [Option.some.injEq, Prod.mk.injEq] at hx
        obtain ⟨rfl, rfl⟩ := hx
        exact ⟨_, rfl, hstart.release block⟩
      | some copy =>
        simp only [Option.map_eq_some_iff, Prod.mk.injEq] at hx
        obtain ⟨⟨n, mem₃⟩, hloop, rfl, rfl⟩ := hx
        obtain ⟨host', hloop', hrest⟩ := parseLoop_alike fuel _ _ hstart.grants hloop
        refine ⟨host', ?_, (hstart.trans hrest).release copy.block⟩
        exact congrArg (Option.map fun out => (some out.1, out.2)) hloop'

/-- With memory, the parser returns what its lines mean, one after the other. -/
theorem serviceNotificationParse_lines {fuel : Nat} {message : CString} (hfuel : message.bytes.length < fuel)
    (hm : host.HasMemory) :
    ∃ host', serviceNotificationParse fuel (some message) host =
      some (some ((messageLines message.bytes).foldl ServiceNotification.noted .cleared), host') := by
  obtain ⟨out, hx, hparsed⟩ := Memory.serviceNotificationParse_parsed message host.memory_holds hfuel
  obtain ⟨host', hy, halike⟩ := serviceNotificationParse_alike host.grants_memory hx
  have hnone := (halike.spared hm).2
  refine ⟨host', ?_⟩
  rw [hy]
  -- nothing was refused
  cases hparsed with
  | refused mem' k' hk h =>
    rw [h.refusals] at hnone
    exact absurd hnone (Nat.ne_of_gt hk)
  | parsed n mem' k' hk h hshort hfull hdestroy =>
    rw [h.refusals] at hnone
    rw [Option.map_some, hfull hnone]

end Alike

/-- For every message, with memory and time enough, the parser returns what the lines of the message
say, and the lines that say nothing make no difference. -/
theorem serviceNotificationParse_reads (message : CString) (host : Host) (hm : host.HasMemory) (fuel : Nat)
    (hfuel : message.bytes.length < fuel) :
    ∃ n host', serviceNotificationParse fuel (some message) host = some (some n, host') ∧
      n.Reads (messageLines message.bytes) ∧
      ∀ (message₁ : CString) (host₁ : Host) (fuel₁ : Nat), host₁.HasMemory → message₁.bytes.length < fuel₁ →
        (messageLines message₁.bytes).filter ServiceNotification.Recognised =
          (messageLines message.bytes).filter ServiceNotification.Recognised →
        ∃ host₁', serviceNotificationParse fuel₁ (some message₁) host₁ = some (some n, host₁') := by
  obtain ⟨host', hx⟩ := serviceNotificationParse_lines hfuel hm
  refine ⟨_, host', hx, ServiceNotification.reads_lines _, ?_⟩
  intro message₁ host₁ fuel₁ hm₁ hfuel₁ hsame
  obtain ⟨host₁', hx₁⟩ := serviceNotificationParse_lines hfuel₁ hm₁
  refine ⟨host₁', ?_⟩
  rw [hx₁, ← ServiceNotification.foldl_noted_recognised (messageLines message₁.bytes), hsame,
    ServiceNotification.foldl_noted_recognised]

theorem serviceNotificationParse_reads_busyMessage :
    ∃ n host', serviceNotificationParse 80 (some busyMessage) (.generous [] [] 0) = some (some n, host') ∧
      n.Reads (messageLines busyMessage.bytes) := by
  have hm : (Host.generous [] [] 0).HasMemory := fun _ => rfl
  obtain ⟨n, host', hx, hreads, -⟩ := serviceNotificationParse_reads busyMessage _ hm 80 (by decide)
  exact ⟨n, host', hx, hreads⟩

example : (serviceNotificationParse 80 (some busyMessage) (.generous [] [] 0)).map Prod.fst =
    some (some ⟨true, false, some (bytes "a=b")⟩) := by decide +kernel

end EmblaOs
