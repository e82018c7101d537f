import Mathlib.Data.List.Basic

/-! Logs in which entries of one kind stand only behind entries of another. -/
namespace UnixCodes

universe u

variable {α : Type u} {P Q : α → Prop} {log : List α} {x : α}

/-- Before each entry with `Q` there is one with `P`. -/
def Precedes (P Q : α → Prop) (log : List α) : Prop :=
  ∀ before x after, log = before ++ x :: after → Q x → ∃ y ∈ before, P y

namespace Precedes

theorem nil : Precedes P Q [] := by
  intro before x after h
  simp at h

theorem concat (h : Precedes P Q log) (hx : Q x → ∃ y ∈ log, P y) :
    Precedes P Q (log ++ [x]) := by
  intro before y after heq hy
  rcases List.eq_nil_or_concat after with rfl | ⟨after, z, rfl⟩
  · obtain ⟨rfl, hxy⟩ := List.append_inj' heq rfl
    obtain rfl := List.singleton_inj.mp hxy
    exact hx hy
  · rw [List.concat_eq_append, ← List.cons_append, ← List.append_assoc] at heq
    obtain ⟨heq, -⟩ := List.append_inj' heq rfl
    exact h before y after heq hy

theorem concat_of_not (h : Precedes P Q log) (hx : ¬ Q x) : Precedes P Q (log ++ [x]) :=
  h.concat fun hq => absurd hq hx

end Precedes

end UnixCodes
