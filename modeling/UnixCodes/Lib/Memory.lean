import Mathlib.Data.List.TakeWhile

/-! Memory that is written in place, and the strings in it that a NUL ends. -/
namespace UnixCodes

universe u

variable {α : Type u} {mem bs : List α} {i p : ℕ}

/-- `bs` is written from place `i` on. -/
def overwrite (mem : List α) (i : ℕ) (bs : List α) : List α :=
  mem.take i ++ bs ++ mem.drop (i + bs.length)

theorem length_overwrite (h : i + bs.length ≤ mem.length) :
    (overwrite mem i bs).length = mem.length := by
  simp only [overwrite, List.length_append, List.length_take, List.length_drop]
  omega

/-- A place holds what has been written there, or what it held before. -/
theorem getElem?_overwrite (h : i ≤ mem.length) :
    (overwrite mem i bs)[p]? = if i ≤ p ∧ p < i + bs.length then bs[p - i]? else mem[p]? := by
  have htake : (mem.take i).length = i := by
    rw [List.length_take]
    omega
  unfold overwrite
  rw [List.append_assoc]
  by_cases hlow : i ≤ p
  · rw [List.getElem?_append_right (by omega), htake]
    by_cases hhigh : p < i + bs.length
    · rw [if_pos ⟨hlow, hhigh⟩, List.getElem?_append_left (by omega)]
    · rw [if_neg (by omega), List.getElem?_append_right (by omega), List.getElem?_drop]
      congr 1
      omega
  · rw [if_neg (by omega), List.getElem?_append_left (by omega),
      List.getElem?_take_of_lt (by omega)]

/-- A string without the NUL that ends it. -/
structure CStr where
  bytes : List UInt8
  noNul : 0 ∉ bytes

/-- The string at the beginning of the memory; none if no NUL ends it. -/
def cString (mem : List UInt8) : Option (List UInt8) :=
  if 0 ∈ mem then some (mem.takeWhile (· ≠ 0)) else none

variable {s rest : List UInt8}

theorem cString_append (h : 0 ∉ s) : cString (s ++ 0 :: rest) = some s := by
  have hs : ∀ b ∈ s, decide (b ≠ 0) = true := by
    intro b hb
    rw [decide_eq_true_iff]
    rintro rfl
    exact h hb
  rw [cString, if_pos (by simp), List.takeWhile_append_of_pos hs]
  simp

theorem notMem_of_cString {mem : List UInt8} (h : cString mem = some s) : 0 ∉ s := by
  unfold cString at h
  split at h
  · cases h
    intro hmem
    simpa using List.mem_takeWhile_imp hmem
  · cases h

theorem cString_eq_none (h : 0 ∉ s) : cString s = none := if_neg h

end UnixCodes
