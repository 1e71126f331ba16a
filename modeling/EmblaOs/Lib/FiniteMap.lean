/-
Tables as finite maps. A table that is searched by a key from its first slot on is the map from a key
to the entry found; an entry appended under a new key and a deletion by `swapRemove` are updates of
that map. The history of a map is what was put into it and what was removed, latest first.
-/
import EmblaOs.Lib.SwapRemove
import Mathlib.Logic.Function.Basic

namespace Lib

section Lookup

variable {α κ : Type} [DecidableEq κ] {key key' : α → κ} {l : List α} {a : α} {k : κ} {i : Nat}

/-- The first entry with that key. -/
def lookup (key : α → κ) (l : List α) (k : κ) : Option α := l.find? fun a => decide (key a = k)

@[simp] theorem lookup_nil (key : α → κ) : lookup key [] = fun _ => none := rfl

/-- The search for a slot and the read of that slot. -/
theorem lookup_eq_findIdx (key : α → κ) (l : List α) (k : κ) :
    lookup key l k = (l.findIdx? fun a => decide (key a = k)).bind fun i => l[i]? :=
  List.find?_eq_bind_findIdx?_getElem?

theorem lookup_eq_none : lookup key l k = none ↔ ∀ a ∈ l, key a ≠ k := by
  unfold lookup
  simp

theorem lookup_some (h : lookup key l k = some a) : a ∈ l ∧ key a = k :=
  ⟨List.mem_of_find?_eq_some h, by simpa using List.find?_some h⟩

/-- Where the keys are distinct, the entry of a key is found. -/
theorem lookup_eq_some (hn : (l.map key).Nodup) : lookup key l k = some a ↔ a ∈ l ∧ key a = k := by
  refine ⟨lookup_some, fun ⟨ha, hk⟩ => ?_⟩
  cases hf : lookup key l k with
  | none => exact absurd hk (lookup_eq_none.1 hf a ha)
  | some b =>
    obtain ⟨hb, hkb⟩ := lookup_some hf
    rw [List.inj_on_of_nodup_map hn hb ha (hkb.trans hk.symm)]

theorem lookup_congr (h : ∀ a ∈ l, key' a = key a) : lookup key' l = lookup key l := by
  funext k
  unfold lookup
  refine List.find?_congr fun a ha => ?_
  rw [h a ha]

/-- An entry appended under a new key. -/
theorem lookup_snoc (hnew : ∀ b ∈ l, key b ≠ key a) :
    lookup key (l ++ [a]) = Function.update (lookup key l) (key a) (some a) := by
  funext k
  unfold lookup
  rw [List.find?_append]
  by_cases hk : k = key a
  · subst hk
    have hnone : lookup key l (key a) = none := lookup_eq_none.2 hnew
    unfold lookup at hnone
    simp [hnone]
  · have hne : key a ≠ k := fun h => hk h.symm
    simp [hk, hne]

/-- The entry of one slot deleted. -/
theorem lookup_swapRemove (hn : (l.map key).Nodup) (hi : i < l.length) :
    lookup key (swapRemove l i) = Function.update (lookup key l) (key l[i]) none := by
  funext k
  refine Option.ext fun a => ?_
  rw [lookup_eq_some (nodup_map_swapRemove hi key hn), mem_swapRemove hi (.of_map _ hn)]
  by_cases hk : k = key l[i]
  · subst hk
    rw [Function.update_self]
    refine iff_of_false (fun ⟨⟨ha, hne⟩, hka⟩ => hne ?_) (by simp)
    exact List.inj_on_of_nodup_map hn ha (List.getElem_mem hi) hka
  · rw [Function.update_of_ne hk, lookup_eq_some hn]
    refine ⟨fun ⟨⟨ha, _⟩, hka⟩ => ⟨ha, hka⟩, fun ⟨ha, hka⟩ => ⟨⟨ha, ?_⟩, hka⟩⟩
    rintro rfl
    exact hk hka.symm

end Lookup

/-! ## Histories -/

inductive MapEvent (κ α : Type)
  | put (k : κ) (a : α)
  | removed (k : κ)
  deriving DecidableEq, Repr

section History

variable {α κ : Type} {log : List (MapEvent κ α)} {m : κ → Option α} {k k' : κ} {a b : α}

def MapEvent.key : MapEvent κ α → κ
  | .put k _ => k
  | .removed k => k

/-- The keys under which something was put, latest first. -/
def putKeys (log : List (MapEvent κ α)) : List κ :=
  log.filterMap fun
    | .put k _ => some k
    | .removed _ => none

@[simp] theorem putKeys_put : putKeys (.put k a :: log) = k :: putKeys log := rfl

@[simp] theorem putKeys_removed : putKeys (.removed k :: log) = putKeys log := rfl

/-- `a` was put under `k`, and `k` was neither put anew nor removed since. -/
def Stands (log : List (MapEvent κ α)) (k : κ) (a : α) : Prop :=
  ∃ later earlier, log = later ++ .put k a :: earlier ∧ ∀ e ∈ later, e.key ≠ k

theorem stands_nil : ¬ Stands [] k a := by
  rintro ⟨later, earlier, heq, -⟩
  simp at heq

/-- An event about the key itself decides, any other is passed over. -/
theorem stands_cons {e : MapEvent κ α} :
    Stands (e :: log) k a ↔ e = .put k a ∨ e.key ≠ k ∧ Stands log k a := by
  constructor
  · rintro ⟨later, earlier, heq, hlater⟩
    cases later with
    | nil => exact .inl (List.cons.inj heq).1
    | cons e' later =>
      obtain ⟨rfl, rfl⟩ := List.cons.inj heq
      exact .inr ⟨hlater e List.mem_cons_self, later, earlier, rfl, fun e' he' => hlater e' (List.mem_cons_of_mem _ he')⟩
  · rintro (rfl | ⟨hne, later, earlier, rfl, hlater⟩)
    · exact ⟨[], log, rfl, by simp⟩
    · refine ⟨e :: later, earlier, rfl, fun e' he' => ?_⟩
      rcases List.mem_cons.1 he' with rfl | he'
      · exact hne
      · exact hlater e' he'

/-- The map holds what stands in the log and nothing else. -/
def LogOf (log : List (MapEvent κ α)) (m : κ → Option α) : Prop := ∀ k a, m k = some a ↔ Stands log k a

theorem LogOf.nil : LogOf ([] : List (MapEvent κ α)) fun _ => none :=
  fun _ _ => iff_of_false (by simp) stands_nil

variable [DecidableEq κ]

theorem LogOf.put (h : LogOf log m) (k : κ) (a : α) : LogOf (.put k a :: log) (Function.update m k (some a)) := by
  intro k' b
  rw [stands_cons]
  by_cases hk : k' = k
  · subst hk
    simp [MapEvent.key]
  · have hne : k ≠ k' := fun h => hk h.symm
    simp [MapEvent.key, hk, hne, h k' b]

theorem LogOf.removed (h : LogOf log m) (k : κ) : LogOf (.removed k :: log) (Function.update m k none) := by
  intro k' b
  rw [stands_cons]
  by_cases hk : k' = k
  · subst hk
    simp [MapEvent.key]
  · have hne : k ≠ k' := fun h => hk h.symm
    simp [MapEvent.key, hk, hne, h k' b]

end History

end Lib
