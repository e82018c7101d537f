import Mathlib.Data.UInt
import Mathlib.Logic.Function.Basic

/-! The accounts of `brass_bank.cpp`. -/
namespace UnixCodes.BrassBank

structure BrassAccount where
  balance : UInt64
  accountNumber : UInt64
  clientName : String
  deriving DecidableEq

structure BrassPlusAccount extends BrassAccount where
  overdraftLimit : UInt64
  rate : UInt16
  deriving DecidableEq

namespace BrassAccount

/-- The constructor, with the static counter before and after it. -/
def new (nextAccountNumber : UInt64) (name : String) (bal : UInt64) : BrassAccount × UInt64 :=
  (⟨bal, nextAccountNumber, name⟩, nextAccountNumber + 1)

def deposite (a : BrassAccount) (amount : UInt64) : BrassAccount × Bool :=
  ({ a with balance := a.balance + amount }, true)

def withdraw (a : BrassAccount) (amount : UInt64) : BrassAccount × Bool :=
  if amount > a.balance then (a, false)
  else ({ a with balance := a.balance - amount }, true)

end BrassAccount

namespace BrassPlusAccount

def new (nextAccountNumber : UInt64) (name : String) (bal : UInt64) (rate : UInt16)
    (overdraftLimit : UInt64) : BrassPlusAccount × UInt64 :=
  let (base, next) := BrassAccount.new nextAccountNumber name bal
  (⟨base, overdraftLimit, rate⟩, next)

/-- The constructor with its default arguments. -/
def newDefault (nextAccountNumber : UInt64) (name : String) : BrassPlusAccount × UInt64 :=
  new nextAccountNumber name 500 11125 1000

/-- The overdraft limit is not looked at. -/
def withdraw (a : BrassPlusAccount) (amount : UInt64) : BrassPlusAccount × Bool :=
  let (base, ok) := a.toBrassAccount.withdraw amount
  ({ a with toBrassAccount := base }, ok)

end BrassPlusAccount

/-- What a `BrassAccount *` points to. -/
inductive Account
  | brass (a : BrassAccount)
  | brassPlus (a : BrassPlusAccount)
  deriving DecidableEq

namespace Account

def balance : Account → UInt64
  | brass a => a.balance
  | brassPlus a => a.balance

/-- `deposite` is not virtual. -/
def deposite (amount : UInt64) : Account → Account × Bool
  | brass a =>
    let (a, ok) := a.deposite amount
    (brass a, ok)
  | brassPlus a =>
    let (base, ok) := a.toBrassAccount.deposite amount
    (brassPlus { a with toBrassAccount := base }, ok)

def withdraw (amount : UInt64) : Account → Account × Bool
  | brass a =>
    let (a, ok) := a.withdraw amount
    (brass a, ok)
  | brassPlus a =>
    let (a, ok) := a.withdraw amount
    (brassPlus a, ok)

variable {amount : UInt64} {a : Account}

@[simp] theorem deposite_result : (a.deposite amount).2 = true := by cases a <;> rfl

@[simp] theorem balance_deposite : (a.deposite amount).1.balance = a.balance + amount := by
  cases a <;> rfl

/-- Both classes refuse what is above the balance. -/
theorem withdraw_refused (h : a.balance < amount) : a.withdraw amount = (a, false) := by
  cases a with
  | brass a => simp only [withdraw, BrassAccount.withdraw, if_pos (show amount > a.balance from h)]
  | brassPlus a =>
    simp only [withdraw, BrassPlusAccount.withdraw, BrassAccount.withdraw,
      if_pos (show amount > a.balance from h)]

/-- The overdraft limit of 1000 that a `BrassPlusAccount` has by default does not help. -/
theorem withdraw_newDefault (nextAccountNumber : UInt64) (name : String) (h : 500 < amount) :
    (brassPlus (BrassPlusAccount.newDefault nextAccountNumber name).1).withdraw amount =
      (brassPlus (BrassPlusAccount.newDefault nextAccountNumber name).1, false) :=
  withdraw_refused h

theorem withdraw_granted (h : amount ≤ a.balance) :
    (a.withdraw amount).2 = true ∧ (a.withdraw amount).1.balance = a.balance - amount := by
  cases a with
  | brass a =>
    have hle : ¬ amount > a.balance := UInt64.not_lt.mpr h
    simp only [withdraw, BrassAccount.withdraw, if_neg hle]
    exact ⟨trivial, rfl⟩
  | brassPlus a =>
    have hle : ¬ amount > a.balance := UInt64.not_lt.mpr h
    simp only [withdraw, BrassPlusAccount.withdraw, BrassAccount.withdraw, if_neg hle]
    exact ⟨trivial, rfl⟩

end Account

universe u

/-- A call on the object `account`. -/
inductive Call (ι : Type u)
  | deposite (account : ι) (amount : UInt64)
  | withdraw (account : ι) (amount : UInt64)

variable {ι : Type u}

def Call.account : Call ι → ι
  | deposite i _ | withdraw i _ => i

/-- The object after the call, and what the call returns. -/
def Call.on : Call ι → Account → Account × Bool
  | deposite _ amount, a => a.deposite amount
  | withdraw _ amount, a => a.withdraw amount

/-- The objects of a program. -/
abbrev Bank (ι : Type u) : Type u := ι → Account

namespace Bank

variable [DecidableEq ι]

def call (b : Bank ι) (c : Call ι) : Bank ι × Bool :=
  let (a, ok) := c.on (b c.account)
  (Function.update b c.account a, ok)

/-- The objects after a sequence of calls. -/
def after (b : Bank ι) : List (Call ι) → Bank ι
  | [] => b
  | c :: cs => (b.call c).1.after cs

/-- The calls of a sequence with what they return. -/
def log (b : Bank ι) : List (Call ι) → List (Call ι × Bool)
  | [] => []
  | c :: cs => (c, (b.call c).2) :: (b.call c).1.log cs

end Bank

end UnixCodes.BrassBank
