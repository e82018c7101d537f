import Mathlib.Data.Finset.Basic
import Mathlib.Logic.Function.Basic

/-! Tables that keep each of a finite set of items in one slot. -/
namespace UnixCodes

universe u v

variable {ι : Type u} {κ : Type v} [DecidableEq ι] [DecidableEq κ]

/-- The slots of the table hold the items, each of them once. -/
structure Places (slot : ι → Option κ) (items : Finset κ) : Prop where
  holds : ∀ k, k ∈ items ↔ ∃ i, slot i = some k
  once : ∀ i j k, slot i = some k → slot j = some k → i = j

namespace Places

variable {slot : ι → Option κ} {items : Finset κ} {i j : ι} {k : κ}

omit [DecidableEq ι] [DecidableEq κ] in
theorem empty : Places (fun _ : ι => (none : Option κ)) ∅ := by
  refine ⟨fun k => by simp, ?_⟩
  intro i j k hi
  cases hi

omit [DecidableEq ι] [DecidableEq κ] in
theorem unique_slot (h : Places slot items) (hk : k ∈ items) : ∃! i, slot i = some k := by
  obtain ⟨i, hi⟩ := (h.holds k).mp hk
  exact ⟨i, hi, fun j hj => h.once j i k hj hi⟩

/-- A new item goes to a free slot. -/
theorem occupy (h : Places slot items) (hi : slot i = none) (hk : k ∉ items) :
    Places (Function.update slot i (some k)) (insert k items) := by
  constructor
  · intro k'
    rw [Finset.mem_insert, h.holds k']
    constructor
    · rintro (rfl | ⟨j, hj⟩)
      · exact ⟨i, Function.update_self ..⟩
      · refine ⟨j, ?_⟩
        rw [Function.update_of_ne, hj]
        rintro rfl
        rw [hi] at hj
        cases hj
    · rintro ⟨j, hj⟩
      by_cases he : j = i
      · subst he
        rw [Function.update_self] at hj
        exact .inl (Option.some.inj hj).symm
      · rw [Function.update_of_ne he] at hj
        exact .inr ⟨j, hj⟩
  · intro j j' k' hj hj'
    have hnew (m : ι) (hm : m ≠ i) (hm' : Function.update slot i (some k) m = some k') :
        k' ≠ k := by
      rintro rfl
      rw [Function.update_of_ne hm] at hm'
      exact hk ((h.holds k').mpr ⟨m, hm'⟩)
    by_cases he : j = i <;> by_cases he' : j' = i
    · rw [he, he']
    · subst he
      rw [Function.update_self] at hj
      exact absurd (Option.some.inj hj).symm (hnew j' he' hj')
    · subst he'
      rw [Function.update_self] at hj'
      exact absurd (Option.some.inj hj').symm (hnew j he hj)
    · rw [Function.update_of_ne he] at hj
      rw [Function.update_of_ne he'] at hj'
      exact h.once j j' k' hj hj'

/-- An item leaves its slot. -/
theorem release (h : Places slot items) (hi : slot i = some k) :
    Places (Function.update slot i none) (items.erase k) := by
  constructor
  · intro k'
    rw [Finset.mem_erase, h.holds k']
    constructor
    · rintro ⟨hne, j, hj⟩
      refine ⟨j, ?_⟩
      rw [Function.update_of_ne, hj]
      rintro rfl
      rw [hi] at hj
      exact hne (Option.some.inj hj).symm
    · rintro ⟨j, hj⟩
      have he : j ≠ i := by
        rintro rfl
        rw [Function.update_self] at hj
        cases hj
      rw [Function.update_of_ne he] at hj
      refine ⟨?_, j, hj⟩
      rintro rfl
      exact he (h.once j i k' hj hi)
  · intro j j' k' hj hj'
    have hold (m : ι) (hm : Function.update slot i none m = some k') : slot m = some k' := by
      by_cases he : m = i
      · subst he
        rw [Function.update_self] at hm
        cases hm
      · rwa [Function.update_of_ne he] at hm
    exact h.once j j' k' (hold j hj) (hold j' hj')

end Places

end UnixCodes
