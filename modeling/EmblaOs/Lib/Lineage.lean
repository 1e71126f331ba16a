/-
Lineages: from an element its parent, the parent's parent and so on, until one has none. Where the
parent of every element has a smaller key the lineage ends, nobody occurs in it twice, and the keys
go down along it.
-/
import Mathlib.Data.List.Nodup
import Mathlib.Data.List.Perm.Subperm
import Mathlib.Data.Nat.Init

namespace Lib

variable {α : Type} {parent : α → Option α} {k : α → Nat} {P : α → Prop} {a : α} {line : List α}

/-- `line` is everybody above the element, nearest first. -/
inductive Lineage (parent : α → Option α) : α → List α → Prop
  | top {a : α} (h : parent a = none) : Lineage parent a []
  | up {a b : α} {line : List α} (h : parent a = some b) (hl : Lineage parent b line) : Lineage parent a (b :: line)

namespace Lineage

theorem exists_of_lt (hlt : ∀ a b, P a → parent a = some b → P b ∧ k b < k a) (ha : P a) :
    ∃ line, Lineage parent a line := by
  induction hk : k a using Nat.strong_induction_on generalizing a with
  | _ n ih =>
    cases hp : parent a with
    | none => exact ⟨[], .top hp⟩
    | some b =>
      obtain ⟨hb, hkey⟩ := hlt a b ha hp
      obtain ⟨line, hl⟩ := ih (k b) (hk ▸ hkey) hb rfl
      exact ⟨b :: line, .up hp hl⟩

theorem all (hstep : ∀ a b, P a → parent a = some b → P b) (hl : Lineage parent a line) (ha : P a) : ∀ b ∈ line, P b := by
  induction hl with
  | top => exact fun _ hb => absurd hb List.not_mem_nil
  | up h _ ih =>
    have hb := hstep _ _ ha h
    intro c hc
    rcases List.mem_cons.1 hc with rfl | hc
    · exact hb
    · exact ih hb c hc

/-- Along a lineage the keys go down. -/
theorem pairwise (hlt : ∀ a b, P a → parent a = some b → P b ∧ k b < k a) (hl : Lineage parent a line) (ha : P a) :
    (a :: line).Pairwise fun x y => k y < k x := by
  induction hl with
  | top => exact List.pairwise_singleton ..
  | up h hl ih =>
    obtain ⟨hb, hkey⟩ := hlt _ _ ha h
    have hrest := ih hb
    refine List.pairwise_cons.2 ⟨fun c hc => ?_, hrest⟩
    rcases List.mem_cons.1 hc with rfl | hc
    · exact hkey
    · exact Nat.lt_trans ((List.pairwise_cons.1 hrest).1 c hc) hkey

/-- Whoever stands last has no parent. -/
theorem last (hl : Lineage parent a line) : ∀ b, (a :: line).getLast? = some b → parent b = none := by
  induction hl with
  | top h =>
    intro b hb
    cases hb
    exact h
  | up _ _ ih =>
    intro c hc
    rw [List.getLast?_cons_cons] at hc
    exact ih c hc

end Lineage

/-- A sequence of distinct elements of a list is no longer than the list. -/
theorem length_le_of_decreasing {l : List α} (h : l.Pairwise fun x y => k y < k x) {all : List α}
    (hmem : ∀ x ∈ l, x ∈ all) : l.length ≤ all.length := by
  have hnodup : l.Nodup := h.imp fun hlt heq => absurd (heq ▸ hlt) (Nat.lt_irrefl _)
  exact (hnodup.subperm hmem).length_le

end Lib
