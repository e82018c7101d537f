import Mathlib.Data.Nat.Bitwise
import Mathlib.Logic.Function.Basic

/-! The copies of `aco.c`: `memcpy`, and the sixteen bytes at a time that `x86_64` uses for short
aligned spans. -/
namespace UnixCodes.Libaco

/-- A memory object, by address. -/
abbrev Bytes := ℕ → UInt8

variable {dst src : Bytes} {d s sz i n a : ℕ}

/-- Between two objects that do not overlap. -/
def memcpy (dst : Bytes) (d : ℕ) (src : Bytes) (s sz : ℕ) : Bytes := fun a =>
  if d ≤ a ∧ a < d + sz then src (s + (a - d)) else dst a

/-- `*((T*)p)` for a type of `w` bytes. -/
def loadWord (w : ℕ) (src : Bytes) (p : ℕ) : Fin w → UInt8 := fun j => src (p + j)

def storeWord {w : ℕ} (dst : Bytes) (p : ℕ) (x : Fin w → UInt8) : Bytes := fun a =>
  if h : p ≤ a ∧ a < p + w then x ⟨a - p, by omega⟩ else dst a

/-- `aco_amd64_inline_short_aligned_memcpy_test_ok`. -/
def shortAlignedMemcpyTestOk (d s sz : ℕ) : Prop :=
  (s &&& 0x0f = 0 ∧ d &&& 0x0f = 0) ∧ (sz &&& 0x0f = 0x08 ∧ 0 ≤ sz >>> 4 ∧ sz >>> 4 ≤ 8)

instance : Decidable (shortAlignedMemcpyTestOk d s sz) := by
  unfold shortAlignedMemcpyTestOk
  infer_instance

/-- `xmm0`, `xmm1`, … -/
def loadXmm (src : Bytes) (s n : ℕ) : List (Fin 16 → UInt8) :=
  (List.range n).map fun i => loadWord 16 src (s + 16 * i)

/-- The stores of the registers from the `i`-th one on. -/
def storeXmm (dst : Bytes) (d i : ℕ) : List (Fin 16 → UInt8) → Bytes
  | [] => dst
  | x :: xs => storeXmm (storeWord dst (d + 16 * i) x) d (i + 1) xs

/-- `aco_amd64_inline_short_aligned_memcpy`; the cases of its `switch` end at 8. -/
def inlineShortAlignedMemcpy (dst : Bytes) (d : ℕ) (src : Bytes) (s sz : ℕ) : Bytes :=
  let dst := if sz >>> 4 ≤ 8 then storeXmm dst d 0 (loadXmm src s (sz >>> 4)) else dst
  storeWord dst (d + sz - 8) (loadWord 8 src (s + sz - 8))

/-- `aco_amd64_optimized_memcpy_drop_in`. -/
def optimizedMemcpyDropIn (dst : Bytes) (d : ℕ) (src : Bytes) (s sz : ℕ) : Bytes :=
  if shortAlignedMemcpyTestOk d s sz then inlineShortAlignedMemcpy dst d src s sz
  else memcpy dst d src s sz

theorem memcpy_zero : memcpy dst d src s 0 = dst := by
  funext a
  exact if_neg (by omega)

/-- Two spans, one after the other. -/
theorem memcpy_append {m : ℕ} (hd : i = d + m) (hs : n = s + m) :
    memcpy (memcpy dst d src s m) i src n sz = memcpy dst d src s (m + sz) := by
  subst hd hs
  funext a
  unfold memcpy
  by_cases hlow : a < d + m
  · by_cases hstart : d ≤ a
    · rw [if_neg (by omega), if_pos ⟨hstart, hlow⟩, if_pos (by omega)]
    · rw [if_neg (by omega), if_neg (by omega), if_neg (by omega)]
  · by_cases hend : a < d + m + sz
    · have hplace : s + m + (a - (d + m)) = s + (a - d) := by omega
      rw [if_pos (by omega), if_pos (by omega), hplace]
    · rw [if_neg (by omega), if_neg (by omega), if_neg (by omega)]

theorem storeWord_loadWord (w p q : ℕ) :
    storeWord dst p (loadWord w src q) = memcpy dst p src q w := by
  funext a
  by_cases h : p ≤ a ∧ a < p + w
  · simp [storeWord, loadWord, memcpy, h]
  · simp [storeWord, memcpy, h]

/-- The registers, once the first `i` of them have been stored. -/
theorem storeXmm_loadXmm (n : ℕ) :
    storeXmm dst d 0 (loadXmm src s n) = memcpy dst d src s (16 * n) := by
  have hfrom (i k : ℕ) : storeXmm (memcpy dst d src s (16 * i)) d i
      ((List.range' i k).map fun j => loadWord 16 src (s + 16 * j)) =
        memcpy dst d src s (16 * (i + k)) := by
    induction k generalizing i with
    | zero => rfl
    | succ k ih =>
      rw [List.range'_succ, List.map_cons, storeXmm, storeWord_loadWord, memcpy_append rfl rfl,
        ← Nat.mul_succ, ih (i + 1)]
      congr 1
      omega
  have hall := hfrom 0 n
  rw [Nat.mul_zero, memcpy_zero, Nat.zero_add] at hall
  rw [loadXmm, List.range_eq_range', hall]

theorem inlineShortAlignedMemcpy_eq (h : shortAlignedMemcpyTestOk d s sz) :
    inlineShortAlignedMemcpy dst d src s sz = memcpy dst d src s sz := by
  obtain ⟨-, htail, -, hcases⟩ := h
  have hmod : sz % 16 = 8 := by
    rw [← htail]
    exact (Nat.and_two_pow_sub_one_eq_mod sz 4).symm
  have hdiv : sz >>> 4 = sz / 16 := Nat.shiftRight_eq_div_pow sz 4
  rw [inlineShortAlignedMemcpy, if_pos hcases, storeXmm_loadXmm, storeWord_loadWord,
    memcpy_append (by omega) (by omega), hdiv]
  congr 1
  omega

/-- The copy that `x86_64` uses is `memcpy`, whichever path it takes. -/
theorem optimizedMemcpyDropIn_eq_memcpy (dst : Bytes) (d : ℕ) (src : Bytes) (s sz : ℕ) :
    optimizedMemcpyDropIn dst d src s sz = memcpy dst d src s sz := by
  unfold optimizedMemcpyDropIn
  split
  · rename_i h
    exact inlineShortAlignedMemcpy_eq h
  · rfl

end UnixCodes.Libaco
