import Mathlib.Logic.Function.Basic

/-! Writes through a pointer, of which the null pointer changes nothing. -/
namespace UnixCodes

universe u v

variable {α : Type u} {β : Type v} {h h' : α → Option β} {a b : α} {k : β} {q : Option α}
  {f : β → β}

/-- Of the blocks only the one at `q` is changed, by `f`. -/
structure Changed (h h' : α → Option β) (q : Option α) (f : β → β) : Prop where
  block : ∀ b k, q = some b → h b = some k → h' b = some (f k)
  others : ∀ a, q ≠ some a → h' a = h a

theorem Changed.of_ne (hc : Changed h h' (some a) f) (hb : b ≠ a) : h' b = h b :=
  hc.others b fun he => hb (Option.some.inj he).symm

theorem changed_none (h : α → Option β) (f : β → β) : Changed h h none f :=
  ⟨by simp, fun _ _ => rfl⟩

theorem changed_update [DecidableEq α] (hk : h a = some k) (f : β → β) :
    Changed h (Function.update h a (some (f k))) (some a) f := by
  constructor
  · rintro b k' ⟨⟩ hk'
    obtain rfl := Option.some.inj (hk.symm.trans hk')
    exact Function.update_self ..
  · intro b hb
    exact Function.update_of_ne (fun he => hb (by rw [he])) ..

end UnixCodes
