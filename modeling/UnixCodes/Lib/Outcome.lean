import Mathlib.Data.List.Basic

/-! What a program with exceptions ends with. An exception leaves the state as it is when it is
raised. -/
namespace UnixCodes

universe u

theorem bind_eq_ok {ε α β : Type u} {m : Except ε α} {f : α → Except ε β} {b : β}
    (h : m >>= f = .ok b) : ∃ a, m = .ok a ∧ f a = .ok b := by
  cases m with
  | error => cases h
  | ok a => exact ⟨a, rfl, h⟩

/-- Programs over a state `σ` that may raise an `ε`. -/
abbrev Program (ε σ : Type u) (α : Type u) : Type u := ExceptT ε (StateM σ) α

namespace Program

variable {ε σ α β : Type u} {p : Program ε σ α} {s t u : σ} {a : α} {b : β} {e : ε}

/-- Started in `s` the program returns `a` and leaves the state `t`. -/
def Returns (p : Program ε σ α) (s : σ) (a : α) (t : σ) : Prop := p.run.run s = (.ok a, t)

/-- Started in `s` the program raises `e` and leaves the state `t`. -/
def Raises (p : Program ε σ α) (s : σ) (e : ε) (t : σ) : Prop := p.run.run s = (.error e, t)

theorem returns_get : Returns (get : Program ε σ σ) s s s := rfl

theorem returns_set : Returns (set t : Program ε σ PUnit) s ⟨⟩ t := rfl

theorem returns_modify {f : σ → σ} : Returns (modify f : Program ε σ PUnit) s ⟨⟩ (f s) := rfl

theorem raises_throw : Raises (throw e : Program ε σ α) s e s := rfl

theorem Returns.bind {f : α → Program ε σ β} (hp : Returns p s a t) (hf : Returns (f a) t b u) :
    Returns (p >>= f) s b u := by
  unfold Returns at *
  simp only [ExceptT.run_bind, StateT.run_bind, hp]
  exact hf

theorem Returns.bind_raises {f : α → Program ε σ β} (hp : Returns p s a t)
    (hf : Raises (f a) t e u) : Raises (p >>= f) s e u := by
  unfold Returns Raises at *
  simp only [ExceptT.run_bind, StateT.run_bind, hp]
  exact hf

theorem Raises.catch {handler : ε → Program ε σ α} (hp : Raises p s e t)
    (hh : Returns (handler e) t a u) : Returns (tryCatch p handler) s a u := by
  unfold Returns Raises at *
  rw [ExceptT.run_tryCatch, StateT.run_bind, hp]
  exact hh

/-- A loop whose body takes each state with `I` to the next one. -/
theorem returns_forM {γ : Type u} {xs : List γ} {f : γ → Program ε σ PUnit} (next : σ → γ → σ)
    (I : σ → Prop) (hbody : ∀ x ∈ xs, ∀ s, I s → Returns (f x) s ⟨⟩ (next s x) ∧ I (next s x))
    (hs : I s) : Returns (xs.forM f) s ⟨⟩ (xs.foldl next s) ∧ I (xs.foldl next s) := by
  induction xs generalizing s with
  | nil => exact ⟨rfl, hs⟩
  | cons x xs ih =>
    rw [List.forall_mem_cons] at hbody
    obtain ⟨hx, hnext⟩ := hbody.1 s hs
    obtain ⟨hrest, hend⟩ := ih hbody.2 hnext
    exact ⟨hx.bind hrest, hend⟩

end Program

end UnixCodes
