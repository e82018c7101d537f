import Mathlib.Data.List.Range
import Mathlib.Data.List.TakeDrop

/-! A flat buffer between an input and an output stream: bytes enter at the end pointer, leave at
the start pointer, and both pointers go back to the beginning when they meet. -/
namespace UnixCodes.ByteStream

universe u

/-- The pointers are offsets from the beginning of the buffer. -/
structure Window (α : Type u) where
  mem : ℕ → α
  sptr : ℕ
  eptr : ℕ

namespace Window

variable {α : Type u} {b : Window α} {xs ys zs : List α} {k cap : ℕ}

/-- What lies between the pointers. -/
def pending (b : Window α) : List α := (List.range' b.sptr (b.eptr - b.sptr)).map b.mem

/-- `xs` is stored at the end pointer, which moves past it. -/
def fill (b : Window α) (xs : List α) : Window α where
  mem i := if b.eptr ≤ i then (xs[i - b.eptr]?).getD (b.mem i) else b.mem i
  sptr := b.sptr
  eptr := b.eptr + xs.length

def advance (b : Window α) (k : ℕ) : Window α := { b with sptr := b.sptr + k }

def rewind (b : Window α) : Window α := { b with sptr := 0, eptr := 0 }

/-- The pointers meet only at the beginning of the buffer. -/
def Packed (b : Window α) : Prop := b.sptr = b.eptr → b.sptr = 0

@[simp] theorem fill_sptr : (b.fill xs).sptr = b.sptr := rfl
@[simp] theorem fill_eptr : (b.fill xs).eptr = b.eptr + xs.length := rfl
@[simp] theorem advance_sptr : (b.advance k).sptr = b.sptr + k := rfl
@[simp] theorem advance_eptr : (b.advance k).eptr = b.eptr := rfl
@[simp] theorem rewind_sptr : b.rewind.sptr = 0 := rfl
@[simp] theorem rewind_eptr : b.rewind.eptr = 0 := rfl
@[simp] theorem pending_rewind : b.rewind.pending = [] := rfl

@[simp] theorem length_pending : b.pending.length = b.eptr - b.sptr := by simp [pending]

theorem packed_rewind : b.rewind.Packed := fun _ => rfl

theorem packed_of_lt (h : b.sptr < b.eptr) : b.Packed := fun he => absurd he h.ne

theorem packed_fill (h : b.sptr ≤ b.eptr) (hne : xs ≠ []) : (b.fill xs).Packed := by
  have hpos := List.length_pos_iff.mpr hne
  apply packed_of_lt
  rw [fill_sptr, fill_eptr]
  omega

theorem packed_advance (hne : b.sptr + k ≠ b.eptr) : (b.advance k).Packed :=
  fun he => absurd he hne

theorem Packed.rewound (h : b.Packed) (he : b.sptr = b.eptr) : b.sptr = 0 ∧ b.eptr = 0 :=
  ⟨h he, he ▸ h he⟩

/-- A packed window with something stored has something pending. -/
theorem Packed.sptr_ne (h : b.Packed) (he : b.eptr ≠ 0) : b.sptr ≠ b.eptr :=
  fun hmeet => he (h.rewound hmeet).2

theorem pending_eq_nil (h : b.sptr ≤ b.eptr) : b.pending = [] ↔ b.sptr = b.eptr := by
  rw [← List.length_eq_zero_iff, length_pending]
  omega

theorem pending_fill (h : b.sptr ≤ b.eptr) : (b.fill xs).pending = b.pending ++ xs := by
  apply List.ext_getElem
  · simp
    omega
  · intro i hi hi'
    simp only [pending, fill, List.getElem_map, List.getElem_range']
    simp only [length_pending, fill_sptr, fill_eptr] at hi
    by_cases hlt : i < b.eptr - b.sptr
    · rw [if_neg (by omega), List.getElem_append_left (by simpa using hlt)]
      simp
    · rw [if_pos (by omega), List.getElem_append_right (by simpa using hlt)]
      have hidx : b.sptr + 1 * i - b.eptr = i - (b.eptr - b.sptr) := by omega
      rw [hidx, List.getElem?_eq_getElem (show i - (b.eptr - b.sptr) < xs.length by omega)]
      simp

theorem pending_advance : (b.advance k).pending = b.pending.drop k := by
  apply List.ext_getElem
  · simp
    omega
  · intro i hi hi'
    simp [pending, advance, Nat.add_assoc]

end Window

/-- The window holds what has come in as `ys` and not yet gone out as `xs`. -/
structure Relay {α : Type u} (b : Window α) (cap : ℕ) (xs ys : List α) : Prop where
  le_eptr : b.sptr ≤ b.eptr
  le_cap : b.eptr ≤ cap
  stream : xs ++ b.pending = ys

namespace Relay

variable {α : Type u} {b : Window α} {xs ys zs : List α} {k cap : ℕ}

theorem start (f : ℕ → α) : Relay ⟨f, 0, 0⟩ cap [] [] := ⟨le_rfl, Nat.zero_le _, rfl⟩

theorem fill (h : Relay b cap xs ys) (hz : zs.length ≤ cap - b.eptr) :
    Relay (b.fill zs) cap xs (ys ++ zs) := by
  have hle := h.le_eptr
  have hcap := h.le_cap
  refine ⟨?_, ?_, ?_⟩
  · rw [Window.fill_sptr, Window.fill_eptr]
    omega
  · rw [Window.fill_eptr]
    omega
  · rw [Window.pending_fill hle, ← List.append_assoc, h.stream]

theorem advance (h : Relay b cap xs ys) (hk : k ≤ b.eptr - b.sptr) :
    Relay (b.advance k) cap (xs ++ b.pending.take k) ys := by
  have hle := h.le_eptr
  refine ⟨?_, h.le_cap, ?_⟩
  · rw [Window.advance_sptr, Window.advance_eptr]
    omega
  · rw [Window.pending_advance, List.append_assoc, List.take_append_drop, h.stream]

/-- Only an empty window may be rewound. -/
theorem rewind (h : Relay b cap xs ys) (he : b.sptr = b.eptr) : Relay b.rewind cap xs ys := by
  refine ⟨le_rfl, Nat.zero_le _, ?_⟩
  rw [Window.pending_rewind, ← (Window.pending_eq_nil h.le_eptr).mpr he, h.stream]

/-- With nothing pending, everything that came in has gone out, and conversely. -/
theorem complete_iff (h : Relay b cap xs ys) : xs = ys ↔ b.sptr = b.eptr := by
  rw [← h.stream, ← Window.pending_eq_nil h.le_eptr]
  simp

end Relay

end UnixCodes.ByteStream
