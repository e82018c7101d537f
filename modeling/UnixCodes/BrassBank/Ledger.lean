import Mathlib.Tactic.Ring
import Mathlib.Algebra.BigOperators.Group.List.Basic
import UnixCodes.BrassBank.Model

/-! The balances of `brass_bank.cpp` against the amounts that have been paid in and out. -/
namespace UnixCodes.BrassBank

universe u

variable {ι : Type u} [DecidableEq ι] {b : Bank ι} {c : Call ι} {cs ys : List (Call ι)} {i : ι}

/-- The amount a logged call has paid into the account `i`. -/
def paidIn (i : ι) : Call ι × Bool → ℕ
  | (.deposite j amount, true) => if j = i then amount.toNat else 0
  | _ => 0

/-- The amount a logged call has taken from the account `i`. -/
def paidOut (i : ι) : Call ι × Bool → ℕ
  | (.withdraw j amount, true) => if j = i then amount.toNat else 0
  | _ => 0

def deposited (i : ι) (log : List (Call ι × Bool)) : ℕ := (log.map (paidIn i)).sum

def withdrawn (i : ι) (log : List (Call ι × Bool)) : ℕ := (log.map (paidOut i)).sum

/-- A deposit does not bring the balance above the largest `uint64_t`. -/
def Call.Fits (b : Bank ι) : Call ι → Prop
  | .deposite i amount => (b i).balance.toNat + amount.toNat < 2 ^ 64
  | .withdraw _ _ => True

instance : Decidable (c.Fits b) := by
  cases c with
  | deposite i amount => exact Nat.decLt _ _
  | withdraw i amount => exact instDecidableTrue

/-- Every deposit fits when it is made. -/
def Fit (b : Bank ι) : List (Call ι) → Prop
  | [] => True
  | c :: cs => c.Fits b ∧ Fit (b.call c).1 cs

/-- How often the balance of the account `i` wraps around. -/
def wraps (i : ι) (b : Bank ι) : List (Call ι) → ℕ
  | [] => 0
  | c :: cs => (if c.account = i ∧ ¬ c.Fits b then 1 else 0) + wraps i (b.call c).1 cs

theorem call_of_ne (h : i ≠ c.account) : (b.call c).1 i = b i := Function.update_of_ne h ..

/-- A call that is refused leaves every object as it is. -/
theorem call_refused (h : (b.call c).2 = false) : (b.call c).1 = b := by
  cases c with
  | deposite j amount =>
    have htrue : (b.call (.deposite j amount)).2 = true := Account.deposite_result
    rw [htrue] at h
    cases h
  | withdraw j amount =>
    by_cases hle : amount ≤ (b j).balance
    · have htrue : (b.call (.withdraw j amount)).2 = true := (Account.withdraw_granted hle).1
      rw [htrue] at h
      cases h
    · have hcall : (b j).withdraw amount = (b j, false) :=
        Account.withdraw_refused (UInt64.not_le.mp hle)
      have hset : (b.call (.withdraw j amount)).1 =
          Function.update b j ((b j).withdraw amount).1 := rfl
      rw [hset, hcall, Function.update_eq_self]

/-- A deposit that does not fit loses the modulus. -/
theorem balance_deposite_toNat (a : Account) (amount : UInt64) :
    (a.deposite amount).1.balance.toNat +
        (if ¬ a.balance.toNat + amount.toNat < 2 ^ 64 then 2 ^ 64 else 0) =
      a.balance.toNat + amount.toNat := by
  rw [Account.balance_deposite, UInt64.toNat_add]
  have ha := a.balance.toNat_lt
  have hamount := amount.toNat_lt
  split <;> omega

/-- One call on the account `i` keeps its books, up to the modulus. -/
theorem balance_on (hi : c.account = i) :
    ((b.call c).1 i).balance.toNat + 2 ^ 64 * (if c.account = i ∧ ¬ c.Fits b then 1 else 0) +
        paidOut i (c, (b.call c).2) =
      (b i).balance.toNat + paidIn i (c, (b.call c).2) := by
  subst hi
  have hself : (b.call c).1 c.account = (c.on (b c.account)).1 := Function.update_self ..
  cases c with
  | deposite j amount =>
    have hbalance := balance_deposite_toNat (b j) amount
    have htrue : (b.call (.deposite j amount)).2 = true := Account.deposite_result
    rw [hself, htrue]
    simp only [Call.account, Call.on, Call.Fits, paidIn, paidOut, if_true, true_and]
    split at hbalance <;> simp_all
  | withdraw j amount =>
    have hfits : (Call.withdraw j amount).Fits b := trivial
    by_cases hle : amount ≤ (b j).balance
    · obtain ⟨htrue, hbalance⟩ := Account.withdraw_granted hle
      have hret : (b.call (.withdraw j amount)).2 = true := htrue
      have hsub := UInt64.toNat_sub_of_le _ _ hle
      have hle' := UInt64.le_iff_toNat_le.mp hle
      rw [hself, hret]
      simp only [Call.account, Call.on, hbalance, hsub, hfits, paidIn, paidOut, not_true_eq_false,
        and_false, if_false, if_true]
      omega
    · have hcall : (b j).withdraw amount = (b j, false) :=
        Account.withdraw_refused (UInt64.not_le.mp hle)
      have hret : (b.call (.withdraw j amount)).2 = false := congrArg Prod.snd hcall
      rw [call_refused hret, hret]
      simp [Call.account, hfits, paidIn, paidOut]

theorem paid_of_ne (ok : Bool) (hne : i ≠ c.account) :
    paidIn i (c, ok) = 0 ∧ paidOut i (c, ok) = 0 := by
  cases c <;> cases ok <;> simp_all [paidIn, paidOut, Call.account, eq_comm]

/-- The books of an account over a whole sequence of calls, up to the modulus. -/
theorem balance_after (b : Bank ι) (cs : List (Call ι)) (i : ι) :
    (b.after cs i).balance.toNat + 2 ^ 64 * wraps i b cs + withdrawn i (b.log cs) =
      (b i).balance.toNat + deposited i (b.log cs) := by
  induction cs generalizing b with
  | nil => rfl
  | cons c cs ih =>
    have hrest := ih (b.call c).1
    simp only [Bank.after, Bank.log, wraps, deposited, withdrawn, List.map_cons,
      List.sum_cons] at hrest ⊢
    by_cases hi : c.account = i
    · have hcall := balance_on (b := b) hi
      omega
    · have hne : i ≠ c.account := fun he => hi he.symm
      obtain ⟨hin, hout⟩ := paid_of_ne (b.call c).2 hne
      rw [call_of_ne hne] at hrest
      simp only [hi, false_and, if_false, hin, hout]
      omega

theorem fit_iff_wraps : Fit b cs ↔ ∀ i, wraps i b cs = 0 := by
  induction cs generalizing b with
  | nil => simp [Fit, wraps]
  | cons c cs ih =>
    simp only [Fit, wraps, Nat.add_eq_zero_iff, forall_and, ih]
    refine and_congr_left fun _ => ?_
    constructor
    · intro hfits i
      simp [hfits]
    · intro hzero
      by_contra hnot
      have := hzero c.account
      simp [hnot] at this

theorem after_append : b.after (ys ++ [c]) = ((b.after ys).call c).1 := by
  induction ys generalizing b with
  | nil => rfl
  | cons y ys ih => exact ih

/-- The balances are what has been paid in and out, refused calls change none of them, and a call
changes only that of its own account. -/
structure Ledger (b : Bank ι) (calls : List (Call ι)) : Prop where
  balance : ∀ i, ((b.after calls i).balance.toNat : ℤ) =
    (b i).balance.toNat + deposited i (b.log calls) - withdrawn i (b.log calls)
  refused : ∀ ys c, ys ++ [c] <+: calls → ((b.after ys).call c).2 = false →
    ∀ i, (b.after (ys ++ [c]) i).balance = (b.after ys i).balance
  frame : ∀ ys c, ys ++ [c] <+: calls → ∀ i, i ≠ c.account →
    (b.after (ys ++ [c]) i).balance = (b.after ys i).balance

/-- The books are right exactly as long as every deposit fits in the balance. -/
theorem ledger_iff_fit (b : Bank ι) (calls : List (Call ι)) : Ledger b calls ↔ Fit b calls := by
  have hbooks := balance_after b calls
  rw [fit_iff_wraps]
  constructor
  · intro h i
    have hexact := h.balance i
    have := hbooks i
    omega
  · intro hzero
    refine ⟨fun i => ?_, fun ys c _ hfalse i => ?_, fun ys c _ i hne => ?_⟩
    · have := hbooks i
      have := hzero i
      omega
    · rw [after_append, call_refused hfalse]
    · rw [after_append, call_of_ne hne]

/-- A deposit of one on the largest balance. -/
theorem deposit_wraps :
    ¬ ∀ (b : Bank Unit) (calls : List (Call Unit)), Ledger b calls := by
  intro hall
  have hbalance := (hall (fun _ => .brass (BrassAccount.new 1 "vzgoll" 0xffffffffffffffff).1)
    [.deposite () 1]).balance ()
  revert hbalance
  decide

end UnixCodes.BrassBank
