/-
Notifications of a service (service_notify.c): lines `READY=1`, `STOPPING=1` and `STATUS=…`. The
parser copies the message, lets `strtok_r` cut it into lines in place and cuts each line at its
first `=`. What comes out is said once more line by line, without buffers.
-/
import EmblaOs.Host
import EmblaOs.Lib.CString

namespace EmblaOs

open Lib

def newline : UInt8 := 10

def equalsSign : UInt8 := 61

/-- The flags are `int` in the source and only ever 0 or 1. -/
structure ServiceNotification where
  ready : Bool
  stopping : Bool
  status : Option (List UInt8)
  deriving DecidableEq, Repr

/-- The record `calloc` leaves. -/
def ServiceNotification.cleared : ServiceNotification := ⟨false, false, none⟩

def emblaStrdup (string : List UInt8) (host : Host) : Option (List UInt8) × Host :=
  let (copy, host) := host.malloc
  (if copy then some string else none, host)

def serviceNotificationApplyLine (notification : ServiceNotification) (line : Nat) (b : Buffer) (host : Host) :
    ServiceNotification × Buffer × Host :=
  match b.strchr line equalsSign with
  | none => (notification, b, host)
  | some equals =>
    let b := b.write equals 0
    let key := b.stringAt line
    let value := b.stringAt (equals + 1)
    if strcmp key (bytes "READY") = 0 then
      (if strcmp value (bytes "1") = 0 then { notification with ready := true } else notification, b, host)
    else if strcmp key (bytes "STOPPING") = 0 then
      (if strcmp value (bytes "1") = 0 then { notification with stopping := true } else notification, b, host)
    else if strcmp key (bytes "STATUS") = 0 then
      let (copy, host) := emblaStrdup value host
      ({ notification with status := copy }, b, host)
    else (notification, b, host)

/-- The loop over the tokens of the working copy; `none` when it has not ended after `fuel` rounds. -/
def parseLoop : Nat → ServiceNotification → Option Nat × Nat × Buffer → Host → Option (ServiceNotification × Host)
  | 0, _, _, _ => none
  | _ + 1, notification, (none, _, _), host => some (notification, host)
  | fuel + 1, notification, (some line, saveptr, b), host =>
    let (notification, b, host) := serviceNotificationApplyLine notification line b host
    parseLoop fuel notification (b.strtokR [newline] saveptr) host

/-- The notification, NULL for a NULL message or for want of memory. -/
def serviceNotificationParse (fuel : Nat) (message : Option CString) (host : Host) :
    Option (Option ServiceNotification × Host) :=
  match message with
  | none => some (none, host)
  | some message =>
    let (notification, host) := host.malloc
    if notification = false then some (none, host)
    else
      match emblaStrdup message.bytes host with
      | (none, host) => some (none, host)
      | (some workingCopy, host) =>
        (parseLoop fuel .cleared ((Buffer.holding workingCopy).strtokR [newline] 0) host).map
          fun (notification, host) => (some notification, host)

/-! ## Lines -/

/-- The newline-separated lines of a message. -/
def messageLines (message : List UInt8) : List (List UInt8) := message.splitOn newline

namespace ServiceNotification

/-- What one line means. -/
def noted (n : ServiceNotification) (line : List UInt8) : ServiceNotification where
  ready := n.ready || line = bytes "READY=1"
  stopping := n.stopping || line = bytes "STOPPING=1"
  status := if bytes "STATUS=" <+: line then some (line.drop (bytes "STATUS=").length) else n.status

theorem noted_other {n : ServiceNotification} {line : List UInt8} (hready : line ≠ bytes "READY=1")
    (hstopping : line ≠ bytes "STOPPING=1") (hstatus : ¬ bytes "STATUS=" <+: line) : n.noted line = n := by
  unfold noted
  simp only [hready, hstopping, hstatus, decide_false, Bool.or_false, if_false]

/-- A line without `=` means nothing. -/
theorem noted_of_not_mem {n : ServiceNotification} {line : List UInt8} (h : equalsSign ∉ line) : n.noted line = n := by
  refine noted_other ?_ ?_ ?_
  · rintro rfl
    exact h (by decide)
  · rintro rfl
    exact h (by decide)
  · intro hc
    exact h (hc.subset (by decide))

end ServiceNotification

/-- Two lines cut at their first `=`. -/
theorem keyed_inj (value value' : List UInt8) : ∀ (key key' : List UInt8), equalsSign ∉ key → equalsSign ∉ key' →
    (key ++ equalsSign :: value = key' ++ equalsSign :: value' ↔ key = key' ∧ value = value')
  | [], [], _, _ => by simp
  | [], c :: key', _, h' => by
    have hne : equalsSign ≠ c := fun hc => h' (hc ▸ List.mem_cons_self)
    simp [hne]
  | c :: key, [], h, _ => by
    have hne : c ≠ equalsSign := fun hc => h (hc ▸ List.mem_cons_self)
    simp [hne]
  | c :: key, c' :: key', h, h' => by
    have hrest := keyed_inj value value' key key' (fun hc => h (List.mem_cons_of_mem _ hc))
      fun hc => h' (List.mem_cons_of_mem _ hc)
    simp only [List.cons_append, List.cons.injEq, hrest, and_assoc]

section Keyed

variable {key value : List UInt8} (hkey : equalsSign ∉ key)
include hkey

theorem keyed_eq_ready : key ++ equalsSign :: value = bytes "READY=1" ↔ key = bytes "READY" ∧ value = bytes "1" :=
  keyed_inj value (bytes "1") key (bytes "READY") hkey (by decide)

theorem keyed_eq_stopping :
    key ++ equalsSign :: value = bytes "STOPPING=1" ↔ key = bytes "STOPPING" ∧ value = bytes "1" :=
  keyed_inj value (bytes "1") key (bytes "STOPPING") hkey (by decide)

theorem status_prefix_keyed : bytes "STATUS=" <+: key ++ equalsSign :: value ↔ key = bytes "STATUS" := by
  constructor
  · rintro ⟨rest, hrest⟩
    exact ((keyed_inj rest value (bytes "STATUS") key (by decide) hkey).1 hrest).1.symm
  · rintro rfl
    exact ⟨value, rfl⟩

/-- What a line with a key and a value means. -/
theorem ServiceNotification.noted_keyed (n : ServiceNotification) :
    n.noted (key ++ equalsSign :: value) =
      { ready := n.ready || decide (key = bytes "READY" ∧ value = bytes "1")
        stopping := n.stopping || decide (key = bytes "STOPPING" ∧ value = bytes "1")
        status := if key = bytes "STATUS" then some value else n.status } := by
  unfold noted
  simp only [keyed_eq_ready hkey, keyed_eq_stopping hkey, status_prefix_keyed hkey]
  by_cases hstatus : key = bytes "STATUS"
  · subst hstatus
    rfl
  · rw [if_neg hstatus, if_neg hstatus]

end Keyed

theorem messageLines_newline (rest : List UInt8) : messageLines (newline :: rest) = [] :: messageLines rest :=
  List.splitOn_append_cons_self [] rest

theorem messageLines_single {line : List UInt8} (h : newline ∉ line) : messageLines line = [line] :=
  List.splitOn_eq_singleton h

theorem messageLines_cons {line : List UInt8} (h : newline ∉ line) (rest : List UInt8) :
    messageLines (line ++ newline :: rest) = line :: messageLines rest :=
  List.splitOn_append_cons_self_of_not_mem h rest

/-- Leading newlines, which `strtok_r` skips, are empty lines. -/
theorem foldl_noted_skip (rest : List UInt8) : ∀ (seps : List UInt8) (n : ServiceNotification),
    (∀ x ∈ seps, x ∈ [newline]) →
      (messageLines (seps ++ rest)).foldl ServiceNotification.noted n = (messageLines rest).foldl ServiceNotification.noted n
  | [], _, _ => rfl
  | x :: seps, n, h => by
    obtain rfl : x = newline := List.mem_singleton.1 (h x List.mem_cons_self)
    rw [List.cons_append, messageLines_newline, List.foldl_cons,
      ServiceNotification.noted_of_not_mem List.not_mem_nil]
    exact foldl_noted_skip rest seps n fun y hy => h y (List.mem_cons_of_mem _ hy)

/-! ## What the lines say -/

namespace ServiceNotification

/-- The lines that say something. -/
def Recognised (line : List UInt8) : Prop :=
  line = bytes "READY=1" ∨ line = bytes "STOPPING=1" ∨ bytes "STATUS=" <+: line

instance : DecidablePred Recognised := fun _ => inferInstanceAs (Decidable (_ ∨ _ ∨ _))

/-- `n` is what `lines` say: the flags that some line sets, and the status of the last line that sets
one. -/
structure Reads (n : ServiceNotification) (lines : List (List UInt8)) : Prop where
  ready : n.ready = true ↔ bytes "READY=1" ∈ lines
  stopping : n.stopping = true ↔ bytes "STOPPING=1" ∈ lines
  status : ∀ text, n.status = some text ↔ ∃ before after, lines = before ++ (bytes "STATUS=" ++ text) :: after ∧
    ∀ line ∈ after, ¬ bytes "STATUS=" <+: line
  unset : n.status = none ↔ ∀ line ∈ lines, ¬ bytes "STATUS=" <+: line

theorem reads_cleared : cleared.Reads [] := by
  refine ⟨by decide, by decide, fun text => ?_, by decide⟩
  refine iff_of_false (by simp [cleared]) ?_
  rintro ⟨before, after, hnil, -⟩
  exact List.append_ne_nil_of_right_ne_nil _ (List.cons_ne_nil _ _) hnil.symm

variable {n : ServiceNotification} {lines : List (List UInt8)} {line : List UInt8}

theorem noted_ready_iff : (n.noted line).ready = true ↔ n.ready = true ∨ bytes "READY=1" = line := by
  unfold noted
  rw [Bool.or_eq_true, decide_eq_true_eq, eq_comm (a := line)]

theorem noted_stopping_iff : (n.noted line).stopping = true ↔ n.stopping = true ∨ bytes "STOPPING=1" = line := by
  unfold noted
  rw [Bool.or_eq_true, decide_eq_true_eq, eq_comm (a := line)]

/-- A last line that sets the status. -/
theorem Reads.append_status (h : n.Reads lines) (text : List UInt8) :
    (n.noted (bytes "STATUS=" ++ text)).Reads (lines ++ [bytes "STATUS=" ++ text]) := by
  have hstarts : bytes "STATUS=" <+: bytes "STATUS=" ++ text := List.prefix_append _ _
  have hset : (n.noted (bytes "STATUS=" ++ text)).status = some text := by
    unfold noted
    rw [if_pos hstarts, List.drop_left]
  refine ⟨?_, ?_, fun text' => ?_, ?_⟩
  · rw [noted_ready_iff, h.ready, List.mem_append, List.mem_singleton]
  · rw [noted_stopping_iff, h.stopping, List.mem_append, List.mem_singleton]
  · rw [hset]
    constructor
    · intro htext
      cases htext
      exact ⟨lines, [], rfl, fun _ hl => absurd hl List.not_mem_nil⟩
    · rintro ⟨before, after, hlines, hafter⟩
      rcases List.eq_nil_or_concat after with rfl | ⟨after, last, rfl⟩
      · have hlast := (List.append_inj' hlines rfl).2
        have htext := List.append_cancel_left (List.cons.inj hlast).1
        rw [htext]
      · -- the last line would be behind the last one that sets a status
        rw [List.concat_eq_append] at hlines hafter
        rw [← List.cons_append, ← List.append_assoc] at hlines
        have hlast := (List.cons.inj (List.append_inj' hlines rfl).2).1
        exact absurd (hlast ▸ hstarts) (hafter last (List.mem_append_right _ List.mem_cons_self))
  · rw [hset]
    refine iff_of_false (by simp) fun hall => ?_
    exact hall _ (List.mem_append_right _ List.mem_cons_self) hstarts

theorem Reads.append_other (h : n.Reads lines) (hline : ¬ bytes "STATUS=" <+: line) :
    (n.noted line).Reads (lines ++ [line]) := by
  have hkept : (n.noted line).status = n.status := if_neg hline
  refine ⟨?_, ?_, fun text => ?_, ?_⟩
  · rw [noted_ready_iff, h.ready, List.mem_append, List.mem_singleton]
  · rw [noted_stopping_iff, h.stopping, List.mem_append, List.mem_singleton]
  · rw [hkept, h.status]
    constructor
    · rintro ⟨before, after, rfl, hafter⟩
      refine ⟨before, after ++ [line], by simp, fun l hl => ?_⟩
      rcases List.mem_append.1 hl with hl | hl
      · exact hafter l hl
      · rw [List.mem_singleton.1 hl]
        exact hline
    · rintro ⟨before, after, hlines, hafter⟩
      rcases List.eq_nil_or_concat after with rfl | ⟨after, last, rfl⟩
      · have hlast := (List.cons.inj (List.append_inj' hlines rfl).2).1
        exact absurd (hlast ▸ List.prefix_append _ _) hline
      · rw [List.concat_eq_append] at hlines hafter
        rw [← List.cons_append, ← List.append_assoc] at hlines
        exact ⟨before, after, (List.append_inj' hlines rfl).1, fun l hl => hafter l (List.mem_append_left _ hl)⟩
  · rw [hkept, h.unset]
    constructor
    · intro hall l hl
      rcases List.mem_append.1 hl with hl | hl
      · exact hall l hl
      · rw [List.mem_singleton.1 hl]
        exact hline
    · exact fun hall l hl => hall l (List.mem_append_left _ hl)

theorem reads_lines (lines : List (List UInt8)) : (lines.foldl noted cleared).Reads lines := by
  induction lines using List.reverseRecOn with
  | nil => exact reads_cleared
  | append_singleton lines line ih =>
    rw [List.foldl_append, List.foldl_cons, List.foldl_nil]
    by_cases hline : bytes "STATUS=" <+: line
    · obtain ⟨text, rfl⟩ := hline
      exact ih.append_status text
    · exact ih.append_other hline

/-- Other lines say nothing. -/
theorem foldl_noted_recognised : ∀ (lines : List (List UInt8)) (n : ServiceNotification),
    (lines.filter Recognised).foldl noted n = lines.foldl noted n
  | [], _ => rfl
  | line :: lines, n => by
    by_cases hline : Recognised line
    · rw [List.filter_cons_of_pos (by simpa using hline), List.foldl_cons, List.foldl_cons]
      exact foldl_noted_recognised lines _
    · rw [List.filter_cons_of_neg (by simpa using hline), List.foldl_cons]
      unfold Recognised at hline
      rw [noted_other (fun hc => hline (.inl hc)) (fun hc => hline (.inr (.inl hc))) fun hc => hline (.inr (.inr hc))]
      exact foldl_noted_recognised lines n

end ServiceNotification

/-- Empty lines, a line without `=`, an unknown key, a status with `=` in it and no final newline. -/
def busyMessage : CString := ⟨bytes "\n\nSTATUS=old\nhello\nREADY=10\nKEY=1\nREADY=1\nSTATUS=a=b", by decide⟩

end EmblaOs
