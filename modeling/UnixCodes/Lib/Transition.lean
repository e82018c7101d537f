import Mathlib.Data.List.Basic

/-! Labelled transition systems, their finite runs, and the induction rule for invariants. -/
namespace UnixCodes.Transition

universe u v w

structure System (σ : Type u) (α : Type v) where
  Initial : σ → Prop
  Step : σ → α → σ → Prop

namespace System

variable {σ : Type u} {α : Type v}

/-- A finite run, with the labels of its steps in order. -/
inductive Run (S : System σ α) : σ → List α → σ → Prop
  | refl {s} : S.Run s [] s
  | stepL {s a t xs u} : S.Step s a t → S.Run t xs u → S.Run s (a :: xs) u

def Reachable (S : System σ α) (s : σ) : Prop := ∃ s₀ xs, S.Initial s₀ ∧ S.Run s₀ xs s

/-- Only the steps that a schedule admits. -/
def restrict (S : System σ α) (ok : σ → α → Prop) : System σ α where
  Initial := S.Initial
  Step s a t := ok s a ∧ S.Step s a t

variable {S : System σ α} {s t u : σ} {a : α} {xs ys : List α}

theorem Run.append (h : S.Run s xs t) (h' : S.Run t ys u) : S.Run s (xs ++ ys) u := by
  induction h with
  | refl => exact h'
  | stepL hs _ ih => exact .stepL hs (ih h')

/-- What every step preserves, every run preserves. -/
theorem run_invariant {P : σ → Prop} (hstep : ∀ s a t, S.Step s a t → P s → P t)
    (h : S.Run s xs t) (hs : P s) : P t := by
  induction h with
  | refl => exact hs
  | stepL h _ ih => exact ih (hstep _ _ _ h hs)

theorem reachable_invariant {P : σ → Prop} (hinit : ∀ s, S.Initial s → P s)
    (hstep : ∀ s a t, S.Step s a t → P s → P t) (h : S.Reachable s) : P s := by
  obtain ⟨s₀, xs, hi, hr⟩ := h
  exact run_invariant hstep hr (hinit s₀ hi)

theorem Reachable.step (h : S.Reachable s) (hs : S.Step s a t) : S.Reachable t := by
  obtain ⟨s₀, xs, hi, hr⟩ := h
  exact ⟨s₀, xs ++ [a], hi, hr.append (.stepL hs .refl)⟩

/-- An invariant whose steps rely on what is known of the reachable states. -/
theorem reachable_induction {P : σ → Prop} (hinit : ∀ s, S.Initial s → P s)
    (hstep : ∀ s a t, S.Reachable s → S.Step s a t → P s → P t) (h : S.Reachable s) : P s := by
  have hboth : S.Reachable s ∧ P s := by
    apply reachable_invariant ?_ ?_ h
    · intro s hi
      exact ⟨⟨s, [], hi, .refl⟩, hinit s hi⟩
    · rintro s a t hs ⟨hr, hp⟩
      exact ⟨hr.step hs, hstep s a t hr hs hp⟩
  exact hboth.2

/-- A system with more in its states than `S` does what `S` does. -/
theorem reachable_map {τ : Type w} {T : System τ α} {x : τ} (f : τ → σ)
    (hinit : ∀ x, T.Initial x → S.Initial (f x))
    (hstep : ∀ x a y, T.Step x a y → S.Step (f x) a (f y)) (h : T.Reachable x) :
    S.Reachable (f x) := by
  apply reachable_invariant (P := fun x => S.Reachable (f x)) ?_ ?_ h
  · intro x hi
    exact ⟨f x, [], hinit x hi, .refl⟩
  · intro x a y hs hr
    exact hr.step (hstep x a y hs)

/-- The step of a run that `f` shows as `y`, with what the steps before it have kept. -/
theorem Run.exists_step {β : Type w} {f : α → Option β} {P : σ → Prop} {y : β} {ys zs : List β}
    (hstep : ∀ s a t, S.Step s a t → (∀ b, f a = some b → b ∈ ys) → P s → P t)
    (h : S.Run s xs t) (hxs : xs.filterMap f = ys ++ y :: zs) (hs : P s) :
    ∃ s' a t', P s' ∧ f a = some y ∧ S.Step s' a t' := by
  induction h generalizing ys with
  | refl => simp at hxs
  | @stepL s a t xs u ha _ ih =>
    cases hfa : f a with
    | none =>
      rw [List.filterMap_cons_none hfa] at hxs
      exact ih hstep hxs (hstep s a t ha (by simp [hfa]) hs)
    | some b =>
      rw [List.filterMap_cons_some hfa] at hxs
      cases ys with
      | nil => exact ⟨s, a, t, hs, hfa.trans (congrArg some (List.cons.inj hxs).1), ha⟩
      | cons c ys =>
        obtain ⟨rfl, hys⟩ := List.cons.inj hxs
        refine ih (fun s a t hs' hmem => hstep s a t hs' ?_) hys (hstep s a t ha (by simp [hfa]) hs)
        exact fun b hb => List.mem_cons_of_mem _ (hmem b hb)

theorem exists_mem_of_forall₂ {β : Type w} {L : α → β → Prop} {ys : List β} {b : β}
    (h : List.Forall₂ L xs ys) (hb : b ∈ ys) : ∃ a ∈ xs, L a b := by
  induction h with
  | nil => cases hb
  | @cons x y xs ys hxy _ ih =>
    rcases List.mem_cons.mp hb with rfl | hmem
    · exact ⟨x, List.mem_cons_self .., hxy⟩
    · obtain ⟨a, ha, hab⟩ := ih hmem
      exact ⟨a, List.mem_cons_of_mem _ ha, hab⟩

/-- What `S` does from a state with `I`, `T` does step for step, under labels that match. -/
theorem Run.simulate {τ : Type w} {β : Type w} {T : System τ β} (f : σ → τ) {I : σ → Prop}
    {L : α → β → Prop}
    (hstep : ∀ s a t, I s → S.Step s a t → I t ∧ ∃ b, L a b ∧ T.Step (f s) b (f t))
    (h : S.Run s xs t) (hs : I s) : ∃ ys, List.Forall₂ L xs ys ∧ T.Run (f s) ys (f t) := by
  induction h with
  | refl => exact ⟨[], .nil, .refl⟩
  | stepL h _ ih =>
    obtain ⟨ht, b, hb, hstep'⟩ := hstep _ _ _ hs h
    obtain ⟨ys, hys, hrun⟩ := ih ht
    exact ⟨b :: ys, .cons hb hys, .stepL hstep' hrun⟩

/-- A schedule only removes behaviours. -/
theorem restrict_reachable {ok : σ → α → Prop} (h : (S.restrict ok).Reachable s) :
    S.Reachable s :=
  reachable_map (T := S.restrict ok) id (fun _ hi => hi) (fun _ _ _ hs => hs.2) h

/-- The runs from `s` are bounded, and where one cannot go on `P` holds. -/
def Ends (S : System σ α) (s : σ) (P : σ → Prop) : Prop :=
  ∃ n, ∀ xs t, S.Run s xs t → xs.length ≤ n ∧ ((∀ a u, ¬ S.Step t a u) → P t)

theorem Ends.imp {P Q : σ → Prop} (h : S.Ends s P) (hpq : ∀ t, P t → Q t) : S.Ends s Q := by
  obtain ⟨n, hn⟩ := h
  refine ⟨n, fun xs t hr => ⟨(hn xs t hr).1, fun hstuck => ?_⟩⟩
  exact hpq t ((hn xs t hr).2 hstuck)

/-- An invariant under which every step makes a rank smaller; a step that `p` marks may first add
`c` to it. -/
theorem run_countP {I : σ → ℕ → Prop} {n : ℕ} (p : α → Bool) (c : ℕ)
    (hstep : ∀ s a t n, S.Step s a t → I s n → ∃ m < n + (if p a then c else 0), I t m)
    (h : S.Run s xs t) (hs : I s n) : ∃ m, xs.length + m ≤ n + c * xs.countP p ∧ I t m := by
  induction h generalizing n with
  | refl => exact ⟨n, by simp, hs⟩
  | @stepL s a t xs u h _ ih =>
    obtain ⟨m, hlt, hi⟩ := hstep _ _ _ n h hs
    obtain ⟨k, hle, ht⟩ := ih hi
    have hmarked : c * (if p a then 1 else 0) = if p a then c else 0 := by split <;> simp
    refine ⟨k, ?_, ht⟩
    rw [List.length_cons, List.countP_cons, Nat.mul_add, hmarked]
    omega

theorem ends_of_rank {I : σ → ℕ → Prop} {P : σ → Prop} {n : ℕ}
    (hstep : ∀ s a t n, S.Step s a t → I s n → ∃ m < n, I t m)
    (hfinal : ∀ s n, I s n → (∀ a t, ¬ S.Step s a t) → P s) (hs : I s n) : S.Ends s P := by
  refine ⟨n, fun xs t h => ?_⟩
  obtain ⟨m, hle, ht⟩ := run_countP (fun _ => false) 0 hstep h hs
  rw [Nat.zero_mul] at hle
  exact ⟨by omega, hfinal t m ht⟩

end System

end UnixCodes.Transition
