/-
A bounded table of heap addresses searched by a key that a counter hands out: entries and keys
are distinct, every key is below the counter. A search for the key of an entry finds that entry,
appending a cell whose key is the counter keeps the table, and deletion by `swapRemove` removes
exactly the entry of its slot.
-/
import EmblaOs.Lib.Heap
import EmblaOs.Lib.SwapRemove

namespace Lib

variable {α : Type} {heap : Heap α} {key : α → Nat} {entries : List Nat} {next cap : Nat}

structure Keyed (heap : Heap α) (key : α → Nat) (entries : List Nat) (next cap : Nat) : Prop where
  nodup : entries.Nodup
  alloc : ∀ p ∈ entries, p < heap.next
  keys : (entries.map fun p => key (heap.read p)).Nodup
  keyLt : ∀ p ∈ entries, 1 ≤ key (heap.read p) ∧ key (heap.read p) < next
  size : entries.length ≤ cap

namespace Keyed

theorem empty (heap : Heap α) (key : α → Nat) (next cap : Nat) : Keyed heap key [] next cap := by
  constructor <;> simp

/-- Only addresses and keys matter. -/
theorem of_keys (h : Keyed heap key entries next cap) {heap' : Heap α} (hn : heap.next ≤ heap'.next)
    (hk : ∀ p ∈ entries, key (heap'.read p) = key (heap.read p)) : Keyed heap' key entries next cap := by
  refine ⟨h.nodup, fun p hp => lt_of_lt_of_le (h.alloc p hp) hn, ?_, fun p hp => ?_, h.size⟩
  · rw [List.map_congr_left hk]; exact h.keys
  · rw [hk p hp]; exact h.keyLt p hp

/-- A counter may skip values. -/
theorem skip (h : Keyed heap key entries next cap) {next' : Nat} (hn : next ≤ next') :
    Keyed heap key entries next' cap :=
  ⟨h.nodup, h.alloc, h.keys, fun p hp => ⟨(h.keyLt p hp).1, by have := (h.keyLt p hp).2; omega⟩, h.size⟩

theorem key_inj (h : Keyed heap key entries next cap) {p q : Nat} (hp : p ∈ entries) (hq : q ∈ entries)
    (hk : key (heap.read p) = key (heap.read q)) : p = q :=
  List.inj_on_of_nodup_map h.keys hp hq hk

/-- The search for an entry's key stops at that entry. -/
theorem findIdx (h : Keyed heap key entries next cap) {p : Nat} (hp : p ∈ entries) :
    ∃ i, ∃ hi : i < entries.length,
      entries.findIdx? (fun q => decide (key (heap.read q) = key (heap.read p))) = some i ∧ entries[i] = p := by
  rcases hf : entries.findIdx? (fun q => decide (key (heap.read q) = key (heap.read p))) with _ | i
  · rw [List.findIdx?_eq_none_iff] at hf
    have := hf p hp
    simp at this
  · obtain ⟨hi, hq, -⟩ := List.findIdx?_eq_some_iff_getElem.1 hf
    exact ⟨i, hi, rfl, h.key_inj (List.getElem_mem hi) hp (by simpa using hq)⟩

/-- The entry appended last is found in the last slot. -/
theorem findIdx_last (h : Keyed heap key entries next cap) {l : List Nat} {p : Nat} (he : entries = l ++ [p]) :
    entries.findIdx? (fun q => decide (key (heap.read q) = key (heap.read p))) = some l.length := by
  obtain ⟨i, hi, hf, hget⟩ := h.findIdx (p := p) (by simp [he])
  have hnot : p ∉ l := fun hp => by
    have := h.nodup
    rw [he] at this
    exact List.disjoint_of_nodup_append this hp (List.mem_singleton.2 rfl)
  have hidx := h.nodup.idxOf_getElem i hi
  rw [hget, he, List.idxOf_append_of_notMem hnot, List.idxOf_cons_self, Nat.add_zero] at hidx
  rw [hf, hidx]

/-- A fresh cell carrying the counter's value as its key. -/
theorem append (h : Keyed heap key entries next cap) {a : α} (ha : key a = next) (hpos : 1 ≤ next)
    (hsize : entries.length < cap) :
    Keyed (heap.alloc a).2 key (entries ++ [heap.next]) (next + 1) cap := by
  have hold : ∀ p ∈ entries, (heap.alloc a).2.read p = heap.read p :=
    fun p hp => heap.read_alloc_of_lt a (h.alloc p hp)
  have hmap : entries.map (fun p => key ((heap.alloc a).2.read p)) = entries.map fun p => key (heap.read p) :=
    List.map_congr_left fun p hp => by rw [hold p hp]
  refine ⟨?_, fun p hp => ?_, ?_, fun p hp => ?_, by simp; omega⟩
  · refine List.nodup_append.2 ⟨h.nodup, List.nodup_singleton _, ?_⟩
    rintro p hp q hq rfl
    have := h.alloc p hp
    simp only [List.mem_singleton] at hq
    omega
  · rcases List.mem_append.1 hp with hp | hp
    · have := h.alloc p hp; simp; omega
    · simp only [List.mem_singleton] at hp; simp [hp]
  · rw [List.map_append, hmap]
    refine List.nodup_append.2 ⟨h.keys, List.nodup_singleton _, ?_⟩
    rintro k hk k' hk' rfl
    obtain ⟨p, hp, rfl⟩ := List.mem_map.1 hk
    have := (h.keyLt p hp).2
    simp only [List.map_cons, List.map_nil, List.mem_singleton, Heap.read_alloc_self, ha] at hk'
    omega
  · rcases List.mem_append.1 hp with hp | hp
    · rw [hold p hp]; have := h.keyLt p hp; omega
    · simp only [List.mem_singleton] at hp
      subst hp
      rw [Heap.read_alloc_self, ha]
      omega

theorem swapRemove (h : Keyed heap key entries next cap) {i : Nat} (hi : i < entries.length) :
    Keyed heap key (Lib.swapRemove entries i) next cap := by
  have hsub : ∀ q ∈ Lib.swapRemove entries i, q ∈ entries := fun q hq => mem_of_mem_swapRemove hi hq
  refine ⟨nodup_swapRemove hi h.nodup, fun q hq => h.alloc q (hsub q hq), nodup_map_swapRemove hi _ h.keys,
    fun q hq => h.keyLt q (hsub q hq), ?_⟩
  have h1 := length_swapRemove entries hi
  have h2 := h.size
  omega

end Keyed

end Lib
