/-
Resources of one kind that are handed out and given back: blocks of memory, descriptors, names. What is
handed out is whatever the host offers next, reused or not, as long as nobody holds it; giving back what
is not held is a fault. What everybody holds together adds up, so a call is described by what it adds to
the rest and takes from it.
-/
import EmblaOs.Lib.SwapRemove
import Mathlib.Algebra.Order.Group.Multiset
import Mathlib.Data.Stream.Defs
import Mathlib.Tactic.Abel

namespace Lib

/-- What is held, latest first, what is offered next, how often nothing could be handed out, and how
often something was given back that was not held. -/
structure Ledger (α : Type) where
  held : List α
  offers : Stream' (Option α)
  refusals : Nat
  faults : Nat

namespace Ledger

variable {α β : Type}

/-- Exactly `r` is held, each once, nothing was given back in vain, and there were `n` refusals. -/
structure Holds (l : Ledger α) (r : Multiset α) (n : Nat) : Prop where
  held : (l.held : Multiset α) = r
  nodup : r.Nodup
  refusals : l.refusals = n
  faults : l.faults = 0

/-- A call that gets what `owned` says of its result, or fails after one refusal and leaves what is held
as it was. -/
def Gets (r : Multiset α) (n : Nat) (owned : β → Multiset α) (out : Option β × Ledger α) : Prop :=
  (∃ l, out = (none, l) ∧ l.Holds r (n + 1)) ∨ ∃ b l, out = (some b, l) ∧ l.Holds (owned b + r) n

variable {l : Ledger α} {r : Multiset α} {n : Nat} {a : α}

theorem Holds.congr {s : Multiset α} (h : l.Holds r n) (heq : r = s) : l.Holds s n := heq ▸ h

theorem Holds.mem_iff (h : l.Holds r n) : a ∈ l.held ↔ a ∈ r := by
  rw [← h.held, Multiset.mem_coe]

theorem Holds.refused (h : l.Holds r n) (offers : Stream' (Option α)) :
    Holds { l with offers := offers, refusals := l.refusals + 1 } r (n + 1) :=
  ⟨h.held, h.nodup, congrArg (· + 1) h.refusals, h.faults⟩

theorem Holds.taken (h : l.Holds r n) (hnot : a ∉ r) (offers : Stream' (Option α)) :
    Holds { l with held := a :: l.held, offers := offers } ({a} + r) n :=
  ⟨by rw [← h.held, Multiset.singleton_add, Multiset.cons_coe],
    by rw [Multiset.singleton_add]; exact Multiset.nodup_cons.2 ⟨hnot, h.nodup⟩, h.refusals, h.faults⟩

variable [DecidableEq α]

/-- Takes what is offered; an offer of something that is held counts as none. -/
def acquire (l : Ledger α) : Option α × Ledger α :=
  match l.offers.head with
  | none => (none, { l with offers := l.offers.tail, refusals := l.refusals + 1 })
  | some a =>
    if a ∈ l.held then (none, { l with offers := l.offers.tail, refusals := l.refusals + 1 })
    else (some a, { l with held := a :: l.held, offers := l.offers.tail })

def release (a : α) (l : Ledger α) : Ledger α :=
  if a ∈ l.held then { l with held := l.held.erase a } else { l with faults := l.faults + 1 }

/-- Takes `a`, if nobody holds it. -/
def claim (a : α) (l : Ledger α) : Bool × Ledger α :=
  if a ∈ l.held then (false, l) else (true, { l with held := a :: l.held })

/-- One after the other. -/
def releaseAll : List α → Ledger α → Ledger α
  | [], l => l
  | a :: rest, l => releaseAll rest (l.release a)

/-- A record and the array it points to; without the array the record is given back. -/
def acquireTwo (l : Ledger α) : Option (α × α) × Ledger α :=
  match l.acquire with
  | (none, l) => (none, l)
  | (some record, l) =>
    match l.acquire with
    | (none, l) => (none, l.release record)
    | (some array, l) => (some (record, array), l)

def releaseTwo (record array : α) (l : Ledger α) : Ledger α := (l.release array).release record

theorem Holds.acquire (h : l.Holds r n) : Gets r n (fun a => {a}) l.acquire := by
  unfold Ledger.acquire
  cases l.offers.head with
  | none => exact .inl ⟨_, rfl, h.refused _⟩
  | some a =>
    by_cases ha : a ∈ l.held
    · simp only [if_pos ha]
      exact .inl ⟨_, rfl, h.refused _⟩
    · simp only [if_neg ha]
      exact .inr ⟨a, _, rfl, h.taken (mt h.mem_iff.2 ha) _⟩

theorem Holds.claim (h : l.Holds r n) (a : α) :
    (a ∈ r ∧ l.claim a = (false, l)) ∨ ∃ l', a ∉ r ∧ l.claim a = (true, l') ∧ l'.Holds ({a} + r) n := by
  unfold Ledger.claim
  by_cases ha : a ∈ l.held
  · exact .inl ⟨h.mem_iff.1 ha, if_pos ha⟩
  · exact .inr ⟨_, mt h.mem_iff.2 ha, if_neg ha, h.taken (mt h.mem_iff.2 ha) l.offers⟩

/-- What somebody holds can be given back. -/
theorem Holds.release (h : l.Holds ({a} + r) n) : (l.release a).Holds r n := by
  have ha : a ∈ l.held := h.mem_iff.2 (by simp)
  unfold Ledger.release
  rw [if_pos ha]
  refine ⟨?_, (Multiset.nodup_add.1 h.nodup).2.1, h.refusals, h.faults⟩
  show ((l.held.erase a : List α) : Multiset α) = r
  rw [← Multiset.coe_erase, h.held, Multiset.singleton_add, Multiset.erase_cons_head]

theorem Holds.releaseAll : ∀ {as : List α} {l : Ledger α}, l.Holds (as + r) n → (l.releaseAll as).Holds r n
  | [], _, h => h.congr (zero_add r)
  | a :: as, l, h => by
    have hcons : ((a :: as : List α) : Multiset α) + r = {a} + (as + r) := by
      rw [← Multiset.cons_coe, ← Multiset.singleton_add, add_assoc]
    show ((l.release a).releaseAll as).Holds r n
    exact Holds.releaseAll (h.congr hcons).release

theorem Holds.acquireTwo (h : l.Holds r n) : Gets r n (fun p : α × α => {p.1} + {p.2}) l.acquireTwo := by
  unfold Ledger.acquireTwo
  rcases h.acquire with ⟨l₁, hx, h₁⟩ | ⟨record, l₁, hx, h₁⟩ <;> simp only [hx]
  · exact .inl ⟨l₁, rfl, h₁⟩
  rcases h₁.acquire with ⟨l₂, hy, h₂⟩ | ⟨array, l₂, hy, h₂⟩ <;> simp only [hy]
  · exact .inl ⟨_, rfl, h₂.release⟩
  · refine .inr ⟨_, _, rfl, h₂.congr ?_⟩
    show {array} + ({record} + r) = {record} + {array} + r
    abel

theorem Holds.releaseTwo {b : α} (h : l.Holds ({a} + {b} + r) n) : (l.releaseTwo a b).Holds r n :=
  Holds.release (Holds.release (h.congr (by abel)))

end Ledger

/-! ## What a table owns -/

section Total

variable {α β : Type} {f : β → Multiset α} {l : List β} {b : β} {i : Nat}

/-- What the entries own together. -/
def total (f : β → Multiset α) (l : List β) : Multiset α := (l.map f).sum

@[simp] theorem total_nil (f : β → Multiset α) : total f [] = 0 := rfl

@[simp] theorem total_cons (f : β → Multiset α) (b : β) (l : List β) : total f (b :: l) = f b + total f l := by
  simp [total]

@[simp] theorem total_snoc (f : β → Multiset α) (l : List β) (b : β) : total f (l ++ [b]) = f b + total f l := by
  simp [total, add_comm]

theorem total_perm {l' : List β} (h : l.Perm l') : total f l = total f l' := (h.map f).sum_eq

/-- One entry and the others. -/
theorem total_eraseIdx (h : l[i]? = some b) : total f l = f b + total f (l.eraseIdx i) := by
  obtain ⟨hi, rfl⟩ := List.getElem?_eq_some_iff.1 h
  rw [← total_cons]
  exact total_perm (List.getElem_cons_eraseIdx_perm hi).symm

theorem total_swapRemove (h : l[i]? = some b) : total f l = f b + total f (swapRemove l i) := by
  obtain ⟨hi, -⟩ := List.getElem?_eq_some_iff.1 h
  rw [total_perm (swapRemove_perm l hi)]
  exact total_eraseIdx h

theorem total_set (h : l[i]? = some b) (b' : β) : total f (l.set i b') = f b' + total f (l.eraseIdx i) := by
  obtain ⟨hi, -⟩ := List.getElem?_eq_some_iff.1 h
  have hget : (l.set i b')[i]? = some b' := by simp [hi]
  rw [total_eraseIdx hget, List.eraseIdx_set_eq]

end Total

end Lib
