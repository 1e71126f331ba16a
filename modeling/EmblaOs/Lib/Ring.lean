/-
A bounded FIFO queue kept in a circular array. `Holds cap slots head q` says that the `cap` slots
starting at `head` and wrapping around hold the elements of `q` in order and nothing behind them.
Appending writes the slot `q.length` places after the head, taking the front clears the head slot
and advances it, and deleting at a position closes the gap by shifting what is behind it.
-/
import Mathlib.Data.List.Basic
import Mathlib.Tactic

namespace Lib.Ring

variable {α : Type} {cap head : Nat} {slots : List (Option α)} {q : List α}

/-- The circular window from `head` holds `q`, and the slots outside it are empty. -/
structure Holds (cap : Nat) (slots : List (Option α)) (head : Nat) (q : List α) : Prop where
  size : slots.length = cap
  head_lt : head < cap
  fits : q.length ≤ cap
  cell : ∀ i < cap, slots[(head + i) % cap]? = some q[i]?

theorem Holds.pos (h : Holds cap slots head q) : 0 < cap := by
  have := h.head_lt; omega

/-- Two offsets below the capacity name the same slot only when they are equal. -/
theorem slot_inj {i j : Nat} (hi : i < cap) (hj : j < cap) (hh : head < cap) :
    (head + i) % cap = (head + j) % cap ↔ i = j := by
  constructor
  · intro h
    rcases Nat.lt_or_ge (head + i) cap with h1 | h1 <;> rcases Nat.lt_or_ge (head + j) cap with h2 | h2
    · rw [Nat.mod_eq_of_lt h1, Nat.mod_eq_of_lt h2] at h; omega
    · rw [Nat.mod_eq_of_lt h1, Nat.mod_eq_sub_mod h2, Nat.mod_eq_of_lt (by omega)] at h; omega
    · rw [Nat.mod_eq_sub_mod h1, Nat.mod_eq_of_lt (by omega), Nat.mod_eq_of_lt h2] at h; omega
    · rw [Nat.mod_eq_sub_mod h1, Nat.mod_eq_of_lt (by omega), Nat.mod_eq_sub_mod h2,
        Nat.mod_eq_of_lt (by omega)] at h
      omega
  · rintro rfl; rfl

/-- Writing the slot at offset `j` changes exactly that cell of the window. -/
theorem cell_set (hs : slots.length = cap) (hh : head < cap) {i j : Nat} (hi : i < cap) (hj : j < cap)
    (v : Option α) :
    (slots.set ((head + j) % cap) v)[(head + i) % cap]? =
      if i = j then some v else slots[(head + i) % cap]? := by
  have hpos : 0 < cap := by omega
  rw [List.getElem?_set]
  by_cases h : i = j
  · subst h
    have := Nat.mod_lt (head + i) hpos
    simp [hs, this]
  · have hne : (head + j) % cap ≠ (head + i) % cap := fun e => h ((slot_inj hj hi hh).1 e).symm
    simp [h, hne]

theorem holds_empty (hc : 0 < cap) : Holds cap (List.replicate cap (none : Option α)) 0 [] := by
  refine ⟨by simp, hc, by simp, fun i hi => ?_⟩
  have : i % cap < cap := Nat.mod_lt _ hc
  simp [this]

/-- Appending writes the first free slot. -/
theorem Holds.push (h : Holds cap slots head q) (hlt : q.length < cap) (x : α) :
    Holds cap (slots.set ((head + q.length) % cap) (some x)) head (q ++ [x]) := by
  refine ⟨by simp [h.size], h.head_lt, by simp; omega, fun i hi => ?_⟩
  rw [cell_set h.size h.head_lt hi hlt, h.cell i hi]
  by_cases hi' : i = q.length
  · subst hi'; simp
  · rw [if_neg hi', List.getElem?_append]
    split
    · rfl
    · rw [List.getElem?_eq_none (by omega), List.getElem?_eq_none (by simp; omega)]

/-- The front element is in the head slot. -/
theorem Holds.front (h : Holds cap slots head q) : slots[head]? = some q[0]? := by
  have := h.cell 0 h.pos
  rwa [Nat.add_zero, Nat.mod_eq_of_lt h.head_lt] at this

/-- Taking the front clears the head slot and advances the head. -/
theorem Holds.pop {x : α} (h : Holds cap slots head (x :: q)) :
    Holds cap (slots.set head none) ((head + 1) % cap) q := by
  have hfits := h.fits
  simp only [List.length_cons] at hfits
  refine ⟨by simp [h.size], Nat.mod_lt _ h.pos, by omega, fun i hi => ?_⟩
  have hset : slots.set head none = slots.set ((head + 0) % cap) none := by
    rw [Nat.add_zero, Nat.mod_eq_of_lt h.head_lt]
  have hidx : ((head + 1) % cap + i) % cap = (head + (i + 1)) % cap := by
    rw [Nat.mod_add_mod]; congr 1; omega
  rw [hidx, hset]
  by_cases hlast : i + 1 < cap
  · rw [cell_set h.size h.head_lt hlast h.pos, if_neg (by omega), h.cell (i + 1) hlast]
    simp
  · -- the last offset wraps around to the slot that was just cleared
    have hi' : i + 1 = cap := by omega
    have hw : (head + (i + 1)) % cap = (head + 0) % cap := by rw [hi']; simp
    rw [hw, cell_set h.size h.head_lt h.pos h.pos, if_pos rfl, List.getElem?_eq_none (by omega)]

/-- The slots while the gap at offset `j` moves to the end: everything behind it is still one
place to the right. -/
structure Shifting (cap : Nat) (slots : List (Option α)) (head : Nat) (q : List α) (i j : Nat) : Prop where
  size : slots.length = cap
  moved : ∀ k < cap, k < j → slots[(head + k) % cap]? = some (q.eraseIdx i)[k]?
  kept : ∀ k < cap, j ≤ k → slots[(head + k) % cap]? = some q[k]?

theorem Holds.shifting (h : Holds cap slots head q) (i : Nat) : Shifting cap slots head q i i := by
  refine ⟨h.size, fun k hk hlt => ?_, fun k hk _ => h.cell k hk⟩
  rw [h.cell k hk, List.getElem?_eraseIdx_of_lt hlt]

theorem Shifting.step {i j : Nat} (hh : head < cap) (h : Shifting cap slots head q i j) (hij : i ≤ j)
    (hj : j + 1 < q.length) (hq : q.length ≤ cap) :
    Shifting cap (slots.set ((head + j) % cap) (slots[(head + (j + 1)) % cap]?).join) head q i (j + 1) := by
  have hnext : (slots[(head + (j + 1)) % cap]?).join = q[j + 1]? := by
    rw [h.kept (j + 1) (by omega) (by omega)]; rfl
  rw [hnext]
  refine ⟨by simp [h.size], fun k hk hlt => ?_, fun k hk hle => ?_⟩
  · rw [cell_set h.size hh hk (by omega)]
    by_cases hkj : k = j
    · subst hkj
      rw [if_pos rfl, List.getElem?_eraseIdx_of_ge hij]
    · rw [if_neg hkj, h.moved k hk (by omega)]
  · rw [cell_set h.size hh hk (by omega), if_neg (by omega), h.kept k hk (by omega)]

/-- When the gap has reached the last element, clearing its slot completes the deletion. -/
theorem Shifting.finish {i : Nat} (hh : head < cap) (hi : i < q.length) (hq : q.length ≤ cap)
    (h : Shifting cap slots head q i (q.length - 1)) :
    Holds cap (slots.set ((head + (q.length - 1)) % cap) none) head (q.eraseIdx i) := by
  have hlen : (q.eraseIdx i).length = q.length - 1 := List.length_eraseIdx_of_lt hi
  refine ⟨by simp [h.size], hh, by omega, fun k hk => ?_⟩
  rw [cell_set h.size hh hk (by omega)]
  by_cases hkj : k = q.length - 1
  · rw [if_pos hkj, List.getElem?_eq_none (by omega)]
  · rw [if_neg hkj]
    rcases Nat.lt_or_ge k (q.length - 1) with hlt | hge
    · exact h.moved k hk hlt
    · rw [h.kept k hk hge, List.getElem?_eq_none (by omega), List.getElem?_eq_none (by omega)]

end Lib.Ring
