import Mathlib.Algebra.BigOperators.Group.Finset.Piecewise
import Mathlib.Data.Fintype.Card

/-! Counting the members of a finite family that satisfy a predicate, while members change. -/
namespace UnixCodes.Family

universe u v
variable {ι : Type u} {β : Type v} [Fintype ι] {p q : β → Prop} [DecidablePred p] [DecidablePred q]
  {f g : ι → β} {i : ι} {b : β}

def count (p : β → Prop) [DecidablePred p] (f : ι → β) : ℕ :=
  (Finset.univ.filter fun i => p (f i)).card

theorem count_eq_zero : count p f = 0 ↔ ∀ i, ¬ p (f i) := by
  simp [count, Finset.filter_eq_empty_iff]

theorem count_pos (h : p (f i)) : 0 < count p f :=
  Finset.card_pos.mpr ⟨i, by simp [h]⟩

theorem count_congr (h : ∀ i, p (f i) ↔ q (g i)) : count p f = count q g := by
  simp [count, h]

/-- No member stops satisfying the predicate. -/
theorem count_le (h : ∀ i, p (f i) → p (g i)) : count p f ≤ count p g :=
  Finset.card_le_card (Finset.monotone_filter_right _ (fun i _ => h i))

/-- No member stops satisfying the predicate, and one begins to. -/
theorem count_lt (h : ∀ i, p (f i) → p (g i)) (hf : ¬ p (f i)) (hg : p (g i)) :
    count p f < count p g := by
  apply Finset.card_lt_card
  refine Finset.ssubset_iff_of_subset (Finset.monotone_filter_right _ (fun i _ => h i)) |>.mpr ?_
  exact ⟨i, by simp [hg], by simp [hf]⟩

variable [DecidableEq ι]

/-- Changing one member moves a sum by the difference at that member. -/
theorem sum_update {m : β → ℕ} :
    ∑ j, m (Function.update f i b j) + m (f i) = ∑ j, m (f j) + m b := by
  have hrest : ∑ j ∈ Finset.univ.erase i, m (Function.update f i b j) =
      ∑ j ∈ Finset.univ.erase i, m (f j) := by
    apply Finset.sum_congr rfl
    intro j hj
    rw [Function.update_of_ne (Finset.ne_of_mem_erase hj)]
  rw [← Finset.add_sum_erase _ _ (Finset.mem_univ i), hrest,
    ← Finset.add_sum_erase _ (fun j => m (f j)) (Finset.mem_univ i)]
  simp only [Function.update_self]
  omega

theorem count_update :
    count p (Function.update f i b) + (if p (f i) then 1 else 0) =
      count p f + (if p b then 1 else 0) := by
  simp only [count, Finset.card_filter]
  exact sum_update (m := fun b => if p b then 1 else 0)

end UnixCodes.Family
