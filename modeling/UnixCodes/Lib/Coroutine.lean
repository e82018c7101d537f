import Mathlib.Logic.Function.Basic
import UnixCodes.Lib.Transition

/-! Tasks that take turns, each with a context of its own that nobody else changes. -/
namespace UnixCodes

open Transition

universe u v

structure Tasks (ι : Type u) (κ : Type v) where
  running : Option ι
  context : ι → Option κ

namespace Tasks

inductive Event (ι : Type u) (κ : Type v)
  | create (i : ι) (k : κ)
  | resume (i : ι)
  | compute (k : κ)
  | yield
  | finish
  | drop (i : ι)
  | idle

variable {ι : Type u} {κ : Type v} [DecidableEq ι]

inductive Step : Tasks ι κ → Event ι κ → Tasks ι κ → Prop
  | create {s i k} : s.context i = none →
      Step s (.create i k) { s with context := Function.update s.context i (some k) }
  | resume {s i k} : s.running = none → s.context i = some k →
      Step s (.resume i) { s with running := some i }
  | compute {s i k} : s.running = some i →
      Step s (.compute k) { s with context := Function.update s.context i (some k) }
  | yield {s i} : s.running = some i → Step s .yield { s with running := none }
  | finish {s i} : s.running = some i →
      Step s .finish { running := none, context := Function.update s.context i none }
  | drop {s i} : s.running ≠ some i →
      Step s (.drop i) { s with context := Function.update s.context i none }
  | idle {s} : Step s .idle s

def system (ι : Type u) (κ : Type v) [DecidableEq ι] : System (Tasks ι κ) (Event ι κ) where
  Initial s := s.running = none ∧ ∀ i, s.context i = none
  Step := Step

variable {s t u v : Tasks ι κ} {e : Event ι κ} {es : List (Event ι κ)} {i : ι} {k : κ}

/-- Nobody but a task itself changes its context. -/
theorem kept_step (h : Step s e t) (hi : s.running ≠ some i) (hk : s.context i = some k)
    (hresume : e ≠ .resume i) (hdrop : e ≠ .drop i) :
    t.context i = some k ∧ t.running ≠ some i := by
  have hother {j : ι} {x : Option κ} (hj : i ≠ j) :
      Function.update s.context j x i = some k := (Function.update_of_ne hj ..).trans hk
  have hbusy {j : ι} (hrun : s.running = some j) : i ≠ j := fun he => hi (he ▸ hrun)
  cases h with
  | @create j _ hnone =>
    have hne : i ≠ j := fun he => by
      rw [he, hnone] at hk
      cases hk
    exact ⟨hother hne, hi⟩
  | @resume j => exact ⟨hk, fun he => hresume (congrArg Event.resume (Option.some.inj he))⟩
  | compute hrun => exact ⟨hother (hbusy hrun), hi⟩
  | yield => exact ⟨hk, nofun⟩
  | finish hrun => exact ⟨hother (hbusy hrun), nofun⟩
  | @drop j => exact ⟨hother fun he => hdrop (congrArg Event.drop he.symm), hi⟩
  | idle => exact ⟨hk, hi⟩

theorem kept_run (h : (system ι κ).Run s es t) (hi : s.running ≠ some i) (hk : s.context i = some k)
    (hes : ∀ e ∈ es, e ≠ .resume i ∧ e ≠ .drop i) : t.context i = some k ∧ t.running ≠ some i := by
  induction h with
  | refl => exact ⟨hk, hi⟩
  | stepL h _ ih =>
    obtain ⟨hresume, hdrop⟩ := hes _ (List.mem_cons_self ..)
    obtain ⟨hk', hi'⟩ := kept_step h hi hk hresume hdrop
    exact ih hi' hk' fun e he => hes e (List.mem_cons_of_mem _ he)

/-- Between a `yield` and the next `resume` of a task nothing happens to it. -/
theorem resumed (hk : s.context i = some k) (hyield : Step s .yield t)
    (h : (system ι κ).Run t es u) (hes : ∀ e ∈ es, e ≠ .resume i ∧ e ≠ .drop i)
    (hresume : Step u (.resume i) v) : v.running = some i ∧ v.context i = some k := by
  cases hyield
  cases hresume
  exact ⟨rfl, (kept_run h nofun hk hes).1⟩

/-- A task finds the context that it has been created with. -/
theorem started (hi : s.running ≠ some i) (hcreate : Step s (.create i k) t)
    (h : (system ι κ).Run t es u) (hes : ∀ e ∈ es, e ≠ .resume i ∧ e ≠ .drop i)
    (hresume : Step u (.resume i) v) : v.running = some i ∧ v.context i = some k := by
  cases hcreate
  cases hresume
  exact ⟨rfl, (kept_run h hi (Function.update_self ..) hes).1⟩

end Tasks

end UnixCodes
