import Mathlib.Data.Nat.Bitwise

/-! Rounding by masks and shifts. -/
namespace UnixCodes

variable {b k n m : ℕ}

/-- The complement of a mask of `k` ones rounds down. -/
theorem and_mask_high (hk : k ≤ b) (hn : n < 2 ^ b) :
    n &&& (2 ^ b - 2 ^ k) = n / 2 ^ k * 2 ^ k := by
  have hones : 2 ^ b - 2 ^ k = (2 ^ (b - k) - 1) * 2 ^ k := by
    rw [Nat.sub_mul, ← pow_add, Nat.sub_add_cancel hk, one_mul]
  have hquot : n / 2 ^ k < 2 ^ (b - k) := by
    rw [Nat.div_lt_iff_lt_mul (Nat.two_pow_pos k), ← pow_add, Nat.sub_add_cancel hk]
    exact hn
  apply Nat.eq_of_testBit_eq
  intro i
  rw [hones, Nat.testBit_and, ← Nat.shiftLeft_eq, ← Nat.shiftLeft_eq, Nat.testBit_shiftLeft,
    Nat.testBit_shiftLeft]
  by_cases hi : k ≤ i
  · have hplace : k + (i - k) = i := by omega
    have hbit : n.testBit i = (n / 2 ^ k).testBit (i - k) := by
      rw [Nat.testBit_div_two_pow, Nat.add_comm, hplace]
    rw [decide_eq_true hi, Bool.true_and, Bool.true_and, hbit, Nat.testBit_two_pow_sub_one]
    by_cases hsmall : i - k < b - k
    · simp [hsmall]
    · have hzero : (n / 2 ^ k).testBit (i - k) = false :=
        Nat.testBit_lt_two_pow (hquot.trans_le (Nat.pow_le_pow_right (by decide) (by omega)))
      simp [hzero]
  · simp [hi]

theorem shiftRight_shiftLeft (n k : ℕ) : n >>> k <<< k = n / 2 ^ k * 2 ^ k := by
  rw [Nat.shiftLeft_eq, Nat.shiftRight_eq_div_pow]

/-- Two summands that wrap around give less than either of them. -/
theorem le_add_mod_iff {size : ℕ} (hn : n < size) (hm : m < size) :
    n ≤ (n + m) % size ↔ n + m < size := by
  by_cases h : n + m < size
  · rw [Nat.mod_eq_of_lt h]
    omega
  · have hwrap : (n + m) % size = n + m - size := by
      rw [Nat.mod_eq_sub_mod (by omega), Nat.mod_eq_of_lt (by omega)]
    omega

/-- The number of pages of `p` bytes that `n` bytes need. -/
def pages (p n : ℕ) : ℕ := (n + p - 1) / p

variable {p : ℕ}

theorem pages_of_dvd (hp : 0 < p) (h : n % p = 0) : pages p n = n / p := by
  obtain ⟨q, rfl⟩ := Nat.dvd_of_mod_eq_zero h
  rw [pages, Nat.mul_div_cancel_left q hp, Nat.add_sub_assoc hp, Nat.mul_add_div hp,
    Nat.div_eq_of_lt (by omega), add_zero]

theorem pages_of_not_dvd (hp : 0 < p) (h : n % p ≠ 0) : pages p n = n / p + 1 := by
  have hlt := Nat.mod_lt n hp
  have hsum : n + p - 1 = p * (n / p + 1) + (n % p - 1) := by
    have := Nat.div_add_mod n p
    rw [Nat.mul_add, Nat.mul_one]
    omega
  have hrest : (n % p - 1) / p = 0 := Nat.div_eq_of_lt (by omega)
  rw [pages, hsum, Nat.mul_add_div hp (n / p + 1), hrest, add_zero]

theorem pages_eq_one (hn : 0 < n) (h : n ≤ p) : pages p n = 1 := by
  rw [pages]
  exact Nat.div_eq_of_lt_le (by omega) (by omega)

theorem le_pages_mul (hp : 0 < p) : n ≤ pages p n * p := by
  have hlt := Nat.lt_div_mul_add (a := n + p - 1) hp
  rw [← pages] at hlt
  omega

end UnixCodes
