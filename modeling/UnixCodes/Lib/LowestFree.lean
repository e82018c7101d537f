import Mathlib.Data.Finset.Card
import Mathlib.Data.Finset.Range

/-! The lowest number that is not in use. -/
namespace UnixCodes

/-- One of the first `used.card + 1` numbers is free. -/
def lowestFree (used : Finset ℕ) : ℕ :=
  ((List.range (used.card + 1)).find? (· ∉ used)).getD 0

variable {used : Finset ℕ} {n : ℕ}

theorem find_lowestFree :
    (List.range (used.card + 1)).find? (· ∉ used) = some (lowestFree used) := by
  cases h : (List.range (used.card + 1)).find? (· ∉ used) with
  | some n =>
    rw [lowestFree, h]
    rfl
  | none =>
    have hsub : Finset.range (used.card + 1) ⊆ used := by
      intro n hn
      have hmem : n ∈ List.range (used.card + 1) := by simpa using hn
      simpa using List.find?_eq_none.mp h n hmem
    have hcard := Finset.card_le_card hsub
    rw [Finset.card_range] at hcard
    omega

theorem lowestFree_notMem : lowestFree used ∉ used := by
  simpa using List.find?_some find_lowestFree

theorem mem_of_lt_lowestFree (h : n < lowestFree used) : n ∈ used := by
  have hbefore := (List.find?_range_eq_some.mp find_lowestFree).2.2 n h
  simpa using hbefore

theorem lowestFree_le (h : n ∉ used) : lowestFree used ≤ n := by
  by_contra hlt
  exact h (mem_of_lt_lowestFree (by omega))

theorem lt_lowestFree (h : ∀ m ≤ n, m ∈ used) : n < lowestFree used := by
  by_contra hle
  exact lowestFree_notMem (h _ (Nat.le_of_not_lt hle))

end UnixCodes
