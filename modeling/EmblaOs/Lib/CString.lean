/-
C strings in a block of memory. A pointer into the block is an offset, a string lies at a pointer
when its bytes stand there with a NUL after them, and the functions of string.h scan and write the
block. `Buffer.At` says what string lies where; cutting one with a NUL makes two of it.
-/
import Mathlib.Data.List.TakeWhile

namespace Lib

/-- The bytes of a literal, without its NUL. -/
def bytes (literal : String) : List UInt8 := literal.toList.map fun c => UInt8.ofNat c.toNat

/-- A string as a caller hands it over: NUL-free, the NUL after it left out. -/
structure CString where
  bytes : List UInt8
  nulFree : 0 ∉ bytes
  deriving DecidableEq

/-- Compares two strings, as `strcmp` up to the size of the result. -/
def strcmp : List UInt8 → List UInt8 → Int
  | [], [] => 0
  | [], _ :: _ => -1
  | _ :: _, [] => 1
  | a :: s, b :: t => if a < b then -1 else if b < a then 1 else strcmp s t

theorem strcmp_eq_zero : ∀ s t : List UInt8, strcmp s t = 0 ↔ s = t
  | [], [] => by simp [strcmp]
  | [], _ :: _ => by simp [strcmp]
  | _ :: _, [] => by simp [strcmp]
  | a :: s, b :: t => by
    unfold strcmp
    by_cases hlt : a < b
    · have hne : a ≠ b := fun hc => UInt8.lt_irrefl _ (hc ▸ hlt)
      simp [hlt, hne]
    by_cases hgt : b < a
    · have hne : a ≠ b := fun hc => UInt8.lt_irrefl _ (hc ▸ hgt)
      simp [hlt, hgt, hne]
    · have heq : a = b := UInt8.le_antisymm (UInt8.not_lt.1 hgt) (UInt8.not_lt.1 hlt)
      simp [heq, strcmp_eq_zero s t]

/-- A block of memory. -/
abbrev Buffer := List UInt8

namespace Buffer

/-- The block that holds `s` and its NUL. -/
def holding (s : List UInt8) : Buffer := s ++ [0]

def write (b : Buffer) (p : Nat) (c : UInt8) : Buffer := b.set p c

/-- The bytes from `p` up to the next NUL. -/
def stringAt (b : Buffer) (p : Nat) : List UInt8 := (b.drop p).takeWhile (· ≠ 0)

/-- `strchr` for a byte other than NUL. -/
def strchr (b : Buffer) (p : Nat) (c : UInt8) : Option Nat := ((b.stringAt p).idxOf? c).map (p + ·)

def strspn (b : Buffer) (p : Nat) (accept : List UInt8) : Nat := ((b.stringAt p).takeWhile (· ∈ accept)).length

def strcspn (b : Buffer) (p : Nat) (reject : List UInt8) : Nat := ((b.stringAt p).takeWhile (· ∉ reject)).length

/-- `strtok_r` from `p`, the string on a first call and `*saveptr` later: the token, the new
`*saveptr` and the block. -/
def strtokR (delim : List UInt8) (p : Nat) (b : Buffer) : Option Nat × Nat × Buffer :=
  let start := p + b.strspn p delim
  if b.getD start 0 = 0 then (none, start, b)
  else
    let stop := start + b.strcspn start delim
    if b.getD stop 0 = 0 then (some start, stop, b) else (some start, stop + 1, b.write stop 0)

/-- The string `s` lies at `p`. -/
structure At (b : Buffer) (p : Nat) (s : List UInt8) : Prop where
  nulFree : 0 ∉ s
  here : ∃ more, b.drop p = s ++ 0 :: more

variable {b : Buffer} {p q : Nat} {s t : List UInt8} {c : UInt8}

theorem at_holding (h : 0 ∉ s) : At (holding s) 0 s := ⟨h, [], rfl⟩

theorem At.stringAt (h : At b p s) : b.stringAt p = s := by
  obtain ⟨more, hmore⟩ := h.here
  have hall : ∀ x ∈ s, (decide (x ≠ 0)) = true := by
    intro x hx
    simp only [ne_eq, decide_not, Bool.not_eq_eq_eq_not, Bool.not_true, decide_eq_false_iff_not]
    rintro rfl
    exact h.nulFree hx
  unfold Buffer.stringAt
  rw [hmore, List.takeWhile_append_of_pos hall]
  simp

theorem At.skip (h : At b p (s ++ t)) : At b (p + s.length) t := by
  obtain ⟨more, hmore⟩ := h.here
  refine ⟨fun hc => h.nulFree (List.mem_append_right s hc), more, ?_⟩
  rw [← List.drop_drop, hmore, List.append_assoc, List.drop_left]

/-- What stands at the end of a string or on its first byte. -/
theorem At.getD (h : At b p s) : b.getD p 0 = s.headD 0 := by
  obtain ⟨more, hmore⟩ := h.here
  have hhead : b.getD p 0 = (b.drop p).headD 0 := by
    rw [List.getD_eq_getElem?_getD, List.headD_eq_head?_getD, List.head?_drop]
  rw [hhead, hmore]
  cases s <;> rfl

/-- A write before the string leaves it alone. -/
theorem At.frame (h : At b p s) (hq : q < p) : At (b.write q c) p s := by
  obtain ⟨more, hmore⟩ := h.here
  exact ⟨h.nulFree, more, by rw [write, List.drop_set_of_lt hq, hmore]⟩

/-- A NUL written over a byte of the string ends it there. -/
theorem At.cut (h : At b p (s ++ c :: t)) : At (b.write (p + s.length) 0) p s := by
  obtain ⟨more, hmore⟩ := h.here
  refine ⟨fun hc => h.nulFree (List.mem_append_left _ hc), t ++ 0 :: more, ?_⟩
  rw [write, List.drop_set, if_neg (by omega), hmore, List.append_assoc, List.cons_append]
  have hlen : p + s.length - p = s.length := by omega
  rw [hlen, List.set_append_right _ _ (Nat.le_refl _), Nat.sub_self, List.set_cons_zero]

/-- The rest of the string after it was cut. -/
theorem At.cut_rest (h : At b p (s ++ c :: t)) : At (b.write (p + s.length) 0) (p + s.length + 1) t := by
  have hrest : At b (p + s.length + 1) t := by
    have happ : s ++ c :: t = (s ++ [c]) ++ t := by simp
    rw [happ] at h
    simpa [Nat.add_assoc] using h.skip
  exact hrest.frame (Nat.lt_succ_self _)

theorem At.strchr_none (h : At b p s) (hc : c ∉ s) : b.strchr p c = none := by
  unfold strchr
  rw [h.stringAt, List.idxOf?_eq_none_iff.2 hc]
  rfl

theorem At.strchr_some (h : At b p (s ++ c :: t)) (hc : c ∉ s) : b.strchr p c = some (p + s.length) := by
  unfold strchr
  rw [h.stringAt]
  have hidx : (s ++ c :: t).idxOf? c = some s.length := by
    rw [List.idxOf?_eq_some_iff]
    refine ⟨by simp, by simp, fun j hj => ?_⟩
    rw [List.getElem_append_left hj]
    rintro heq
    exact hc (heq ▸ List.getElem_mem hj)
  rw [hidx]
  rfl

/-! ## Tokens -/

section Tokens

variable {delim seps token rest : List UInt8} {d : UInt8}

theorem takeWhile_until {p : UInt8 → Bool} (hall : ∀ x ∈ s, p x = true) (hstop : ∀ x ∈ t.head?, p x = false) :
    (s ++ t).takeWhile p = s := by
  rw [List.takeWhile_append_of_pos hall]
  cases t with
  | nil => simp
  | cons x t => simp [hstop x rfl]

theorem At.strspn (h : At b p (seps ++ t)) (hseps : ∀ x ∈ seps, x ∈ delim) (hstop : ∀ x ∈ t.head?, x ∉ delim) :
    b.strspn p delim = seps.length := by
  unfold Buffer.strspn
  rw [h.stringAt, takeWhile_until (by simpa using hseps) (by simpa using hstop)]

theorem At.strcspn (h : At b p (token ++ t)) (htoken : ∀ x ∈ token, x ∉ delim) (hstop : ∀ x ∈ t.head?, x ∈ delim) :
    b.strcspn p delim = token.length := by
  unfold Buffer.strcspn
  rw [h.stringAt, takeWhile_until (by simpa using htoken) (by simpa using hstop)]

/-- The longest beginning of a string within a set of bytes, and the rest. -/
theorem exists_span (p : UInt8 → Prop) [DecidablePred p] (s : List UInt8) :
    ∃ t u, s = t ++ u ∧ (∀ x ∈ t, p x) ∧ ∀ x ∈ u.head?, ¬ p x := by
  refine ⟨s.takeWhile p, s.dropWhile p, List.takeWhile_append_dropWhile.symm, ?_, ?_⟩
  · intro x hx
    simpa using List.mem_takeWhile_imp hx
  · intro x hx
    have hnot := List.head?_dropWhile_not p s
    rw [Option.mem_def.1 hx] at hnot
    simpa using hnot

/-- Nothing but delimiters is left. -/
theorem strtokR_none (h : At b p seps) (hseps : ∀ x ∈ seps, x ∈ delim) : (strtokR delim p b).1 = none := by
  rw [← List.append_nil seps] at h
  have hend : b.getD (p + seps.length) 0 = 0 := h.skip.getD
  unfold strtokR
  simp only [h.strspn hseps (by simp), hend, if_true]

variable (hseps : ∀ x ∈ seps, x ∈ delim) (htoken : ∀ x ∈ token, x ∉ delim) (hne : token ≠ [])
include hseps htoken hne

/-- Where the token begins: a byte that is neither a delimiter nor NUL. -/
theorem At.token_start (h : At b p (seps ++ (token ++ t))) :
    b.strspn p delim = seps.length ∧ b.getD (p + seps.length) 0 ≠ 0 := by
  obtain ⟨x, token, rfl⟩ := List.exists_cons_of_ne_nil hne
  constructor
  · exact h.strspn hseps (by simpa using htoken x List.mem_cons_self)
  · rw [h.skip.getD]
    exact fun hc => h.skip.nulFree (hc ▸ List.mem_cons_self)

/-- The token ends where the string ends. -/
theorem strtokR_last (h : At b p (seps ++ token)) :
    strtokR delim p b = (some (p + seps.length), p + seps.length + token.length, b) := by
  rw [← List.append_nil token] at h
  obtain ⟨hspn, hbyte⟩ := h.token_start hseps htoken hne
  have hcspn : b.strcspn (p + seps.length) delim = token.length := h.skip.strcspn htoken (by simp)
  have hend : b.getD (p + seps.length + token.length) 0 = 0 := h.skip.skip.getD
  unfold strtokR
  simp only [hspn, hbyte, if_false, hcspn, hend, if_true]

/-- The delimiter after the token is overwritten. -/
theorem strtokR_more (h : At b p (seps ++ (token ++ d :: rest))) (hd : d ∈ delim) :
    strtokR delim p b = (some (p + seps.length), p + seps.length + token.length + 1,
      b.write (p + seps.length + token.length) 0) := by
  obtain ⟨hspn, hbyte⟩ := h.token_start hseps htoken hne
  have hcspn : b.strcspn (p + seps.length) delim = token.length := h.skip.strcspn htoken (by simpa using hd)
  have hmore := h.skip.skip
  have hend : b.getD (p + seps.length + token.length) 0 ≠ 0 := by
    rw [hmore.getD]
    exact fun hc => hmore.nulFree (hc ▸ List.mem_cons_self)
  unfold strtokR
  simp only [hspn, hbyte, if_false, hcspn, hend]

end Tokens

end Buffer

end Lib
