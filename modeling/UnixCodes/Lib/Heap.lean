import Mathlib.Data.Finset.Card
import Mathlib.Data.Finset.Range

/-! A heap of blocks with names that are never used again, so that a name that has been freed
stays dead. -/
namespace UnixCodes

universe u

structure Heap (β : Type u) where
  block : ℕ → Option β
  next : ℕ
  freed : List ℕ
  fresh : ∀ p, next ≤ p → block p = none
  dead : ∀ p ∈ freed, p < next ∧ block p = none
  nodup : freed.Nodup

namespace Heap

variable {β : Type u} {h : Heap β} {b c : β} {p q : ℕ}

def empty : Heap β := ⟨fun _ => none, 0, [], fun _ _ => rfl, by simp, by simp⟩

/-- The new block is `h.next`. -/
def alloc (h : Heap β) (b : β) : Heap β where
  block p := if p = h.next then some b else h.block p
  next := h.next + 1
  freed := h.freed
  fresh p hp := by
    rw [if_neg (by omega)]
    exact h.fresh p (by omega)
  dead p hp := by
    obtain ⟨hlt, hnone⟩ := h.dead p hp
    rw [if_neg (by omega)]
    exact ⟨by omega, hnone⟩
  nodup := h.nodup

/-- Only an allocated block can be written. -/
def store (h : Heap β) (p : ℕ) (b : β) : Heap β where
  block q := if q = p then (h.block p).map fun _ => b else h.block q
  next := h.next
  freed := h.freed
  fresh q hq := by
    split
    · rename_i he
      rw [h.fresh p (by omega)]
      rfl
    · exact h.fresh q hq
  dead q hq := by
    obtain ⟨hlt, hnone⟩ := h.dead q hq
    refine ⟨hlt, ?_⟩
    split
    · rename_i he
      rw [← he, hnone]
      rfl
    · exact hnone
  nodup := h.nodup

/-- Only an allocated block can be freed. -/
def free (h : Heap β) (p : ℕ) : Heap β where
  block q := if q = p then none else h.block q
  next := h.next
  freed := if (h.block p).isSome then p :: h.freed else h.freed
  fresh q hq := by
    split
    · rfl
    · exact h.fresh q hq
  dead q hq := by
    by_cases he : q = p
    · subst he
      refine ⟨?_, if_pos rfl⟩
      by_contra hge
      simp only [h.fresh q (by omega), Option.isSome_none] at hq
      exact hge (h.dead q hq).1
    · have hmem : q ∈ h.freed := by
        split at hq
        · exact (List.mem_cons.mp hq).resolve_left he
        · exact hq
      rw [if_neg he]
      exact h.dead q hmem
  nodup := by
    split
    · rename_i hp
      refine List.nodup_cons.mpr ⟨fun hmem => ?_, h.nodup⟩
      simp [(h.dead p hmem).2] at hp
    · exact h.nodup

@[simp] theorem block_alloc_next : (h.alloc b).block h.next = some b := if_pos rfl

@[simp] theorem next_alloc : (h.alloc b).next = h.next + 1 := rfl

theorem block_next : h.block h.next = none := h.fresh _ le_rfl

theorem lt_next (hp : h.block p = some b) : p < h.next := by
  by_contra hge
  rw [h.fresh p (by omega)] at hp
  cases hp

theorem ne_next (hp : h.block p = some b) : p ≠ h.next := (lt_next hp).ne

/-- Allocation leaves the other blocks alone. -/
theorem block_alloc_of_ne (hp : p ≠ h.next) : (h.alloc b).block p = h.block p := if_neg hp

theorem block_alloc (hp : h.block p = some c) : (h.alloc b).block p = some c :=
  (block_alloc_of_ne (ne_next hp)).trans hp

theorem block_store_self (hp : h.block p = some c) : (h.store p b).block p = some b := by
  simp [store, hp]

theorem block_store_of_ne (hp : q ≠ p) : (h.store p b).block q = h.block q := if_neg hp

@[simp] theorem block_free_self : (h.free p).block p = none := if_pos rfl

theorem block_free_of_ne (hp : q ≠ p) : (h.free p).block q = h.block q := if_neg hp

def live (h : Heap β) : Finset ℕ := {p ∈ Finset.range h.next | (h.block p).isSome}

@[simp] theorem mem_live : p ∈ h.live ↔ (h.block p).isSome := by
  simp only [live, Finset.mem_filter, Finset.mem_range, and_iff_right_iff_imp]
  intro hp
  obtain ⟨b, hb⟩ := Option.isSome_iff_exists.mp hp
  exact lt_next hb

theorem live_empty : (empty : Heap β).live = ∅ := rfl

theorem next_notMem_live : h.next ∉ h.live := by
  simp [block_next]

theorem live_alloc : (h.alloc b).live = insert h.next h.live := by
  ext p
  by_cases hp : p = h.next
  · simp [hp]
  · simp [hp, block_alloc_of_ne hp]

theorem live_store : (h.store p b).live = h.live := by
  ext q
  by_cases hq : q = p
  · simp [hq, store]
  · simp [block_store_of_ne hq]

theorem live_free : (h.free p).live = h.live.erase p := by
  ext q
  by_cases hq : q = p
  · simp [hq]
  · simp [hq, block_free_of_ne hq]

/-- Every name that has been given out is allocated or has been freed. -/
def Accounted (h : Heap β) : Prop := ∀ p < h.next, (h.block p).isSome ∨ p ∈ h.freed

theorem accounted_empty : (empty : Heap β).Accounted := fun _ hp => absurd hp (Nat.not_lt_zero _)

theorem Accounted.alloc (ha : h.Accounted) : (h.alloc b).Accounted := by
  intro p hp
  by_cases he : p = h.next
  · left
    simp [he]
  · rw [next_alloc] at hp
    rw [block_alloc_of_ne he]
    exact ha p (by omega)

theorem Accounted.free (ha : h.Accounted) : (h.free p).Accounted := by
  intro q hq
  have hfreed : q ∈ h.freed → q ∈ (h.free p).freed := by
    intro hmem
    change q ∈ if (h.block p).isSome then p :: h.freed else h.freed
    split
    · exact List.mem_cons_of_mem _ hmem
    · exact hmem
  rcases ha q hq with hlive | hmem
  · by_cases he : q = p
    · subst he
      right
      simp [Heap.free, hlive]
    · left
      rwa [block_free_of_ne he]
  · exact .inr (hfreed hmem)

/-- What is not allocated any more has been freed once. -/
theorem Accounted.count_freed (ha : h.Accounted) (hp : p < h.next) :
    h.freed.count p = if (h.block p).isSome then 0 else 1 := by
  split
  · rename_i hlive
    apply List.count_eq_zero.mpr
    intro hmem
    simp [(h.dead p hmem).2] at hlive
  · rename_i hdead
    exact List.count_eq_one_of_mem h.nodup ((ha p hp).resolve_left hdead)

theorem card_alloc : (h.alloc b).live.card = h.live.card + 1 := by
  rw [live_alloc, Finset.card_insert_of_notMem next_notMem_live]

theorem card_free (hp : h.block p = some b) : (h.free p).live.card + 1 = h.live.card := by
  rw [live_free, Finset.card_erase_add_one (by simp [hp])]

end Heap

end UnixCodes
