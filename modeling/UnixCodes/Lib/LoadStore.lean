import Mathlib.Data.List.Nodup
import Mathlib.Logic.Function.Basic

/-! Straight-line code of a machine that loads and stores cells: what is stored under an address is
read whole under the same address. -/
namespace UnixCodes.LoadStore

universe u

inductive Instr (ρ : Type u)
  | mov (dst src : ρ)
  | lea (dst base : ρ) (off : ℕ)
  | load (dst base : ρ) (off : ℕ)
  | store (base : ρ) (off : ℕ) (src : ρ)
  | clear (dst : ρ)
  | jmp (target : ρ)

structure State (ρ : Type u) where
  reg : ρ → ℕ
  mem : ℕ → ℕ
  /-- Where the last jump has gone. -/
  pc : ℕ

variable {ρ : Type u} [DecidableEq ρ]

def State.setReg (s : State ρ) (r : ρ) (v : ℕ) : State ρ :=
  { s with reg := Function.update s.reg r v }

def exec (s : State ρ) : Instr ρ → State ρ
  | .mov dst src => s.setReg dst (s.reg src)
  | .lea dst base off => s.setReg dst (s.reg base + off)
  | .load dst base off => s.setReg dst (s.mem (s.reg base + off))
  | .store base off src => { s with mem := Function.update s.mem (s.reg base + off) (s.reg src) }
  | .clear dst => s.setReg dst 0
  | .jmp target => { s with pc := s.reg target }

def run (s : State ρ) (code : List (Instr ρ)) : State ρ := code.foldl exec s

/-- The register that an instruction writes. -/
def Instr.dst : Instr ρ → Option ρ
  | .mov dst _ | .lea dst _ _ | .load dst _ _ | .clear dst => some dst
  | .store .. | .jmp _ => none

/-- Registers stored into a record, each at its offset. -/
def saves (base : ρ) (cells : List (ℕ × ρ)) : List (Instr ρ) :=
  cells.map fun c => .store base c.1 c.2

/-- Registers loaded from a record. -/
def restores (base : ρ) (cells : List (ℕ × ρ)) : List (Instr ρ) :=
  cells.map fun c => .load c.2 base c.1

variable {s : State ρ} {base r : ρ} {cells : List (ℕ × ρ)} {off a v : ℕ}

@[simp] theorem setReg_self : (s.setReg r v).reg r = v := by simp [State.setReg]

theorem setReg_of_ne {q : ρ} (h : q ≠ r) : (s.setReg r v).reg q = s.reg q := by
  simp [State.setReg, h]

@[simp] theorem mem_setReg : (s.setReg r v).mem = s.mem := rfl

@[simp] theorem pc_setReg : (s.setReg r v).pc = s.pc := rfl

@[simp] theorem run_nil : run s [] = s := rfl

@[simp] theorem run_cons (i : Instr ρ) (is : List (Instr ρ)) :
    run s (i :: is) = run (exec s i) is :=
  rfl

theorem run_append (xs ys : List (Instr ρ)) : run s (xs ++ ys) = run (run s xs) ys :=
  List.foldl_append

theorem reg_exec_of_ne {i : Instr ρ} (h : i.dst ≠ some r) : (exec s i).reg r = s.reg r := by
  cases i with
  | mov | lea | load | clear => exact setReg_of_ne fun he => h (congrArg some he.symm)
  | store | jmp => rfl

/-- A register that no instruction names as its destination. -/
theorem reg_run_of_ne {code : List (Instr ρ)} (h : ∀ i ∈ code, i.dst ≠ some r) :
    (run s code).reg r = s.reg r := by
  induction code generalizing s with
  | nil => rfl
  | cons i code ih =>
    obtain ⟨hi, hcode⟩ := List.forall_mem_cons.mp h
    exact (ih hcode).trans (reg_exec_of_ne hi)

@[simp] theorem reg_run_saves : (run s (saves base cells)).reg = s.reg := by
  induction cells generalizing s with
  | nil => rfl
  | cons c cells ih => exact ih

@[simp] theorem pc_run_saves : (run s (saves base cells)).pc = s.pc := by
  induction cells generalizing s with
  | nil => rfl
  | cons c cells ih => exact ih

/-- Only the cells of the record are written. -/
theorem mem_run_saves_of_ne (h : ∀ c ∈ cells, a ≠ s.reg base + c.1) :
    (run s (saves base cells)).mem a = s.mem a := by
  induction cells generalizing s with
  | nil => rfl
  | cons c cells ih =>
    have hne := h c (List.mem_cons_self ..)
    have hrest := ih (s := exec s (.store base c.1 c.2))
      (fun d hd => h d (List.mem_cons_of_mem _ hd))
    refine hrest.trans ?_
    exact Function.update_of_ne hne ..

theorem mem_run_saves (hnodup : (cells.map Prod.fst).Nodup) (h : (off, r) ∈ cells) :
    (run s (saves base cells)).mem (s.reg base + off) = s.reg r := by
  induction cells generalizing s with
  | nil => cases h
  | cons c cells ih =>
    obtain ⟨hc, hnodup⟩ := List.nodup_cons.mp hnodup
    rcases List.mem_cons.mp h with rfl | hmem
    · have hlater : ∀ d ∈ cells, s.reg base + off ≠ s.reg base + d.1 := by
        intro d hd he
        have heq : d.1 = off := by omega
        exact hc (List.mem_map.mpr ⟨d, hd, heq⟩)
      refine (mem_run_saves_of_ne (s := exec s (.store base off r)) hlater).trans ?_
      exact Function.update_self ..
    · exact ih (s := exec s (.store base c.1 c.2)) hnodup hmem

/-- What is stored depends on the registers that are stored, and on where the record is. -/
theorem mem_run_saves_congr {t : State ρ} (hmem : s.mem = t.mem) (hbase : s.reg base = t.reg base)
    (hregs : ∀ c ∈ cells, s.reg c.2 = t.reg c.2) :
    (run s (saves base cells)).mem = (run t (saves base cells)).mem := by
  induction cells generalizing s t with
  | nil => exact hmem
  | cons c cells ih =>
    apply ih (s := exec s (.store base c.1 c.2)) (t := exec t (.store base c.1 c.2))
    · simp only [exec]
      rw [hmem, hbase, hregs c (List.mem_cons_self ..)]
    · exact hbase
    · exact fun d hd => hregs d (List.mem_cons_of_mem _ hd)

@[simp] theorem mem_run_restores : (run s (restores base cells)).mem = s.mem := by
  induction cells generalizing s with
  | nil => rfl
  | cons c cells ih => exact ih

@[simp] theorem pc_run_restores : (run s (restores base cells)).pc = s.pc := by
  induction cells generalizing s with
  | nil => rfl
  | cons c cells ih => exact ih

theorem reg_run_restores_of_ne (h : ∀ c ∈ cells, r ≠ c.2) :
    (run s (restores base cells)).reg r = s.reg r := by
  apply reg_run_of_ne
  intro i hi
  obtain ⟨c, hc, rfl⟩ := List.mem_map.mp hi
  exact fun he => h c hc (Option.some.inj he).symm

/-- The base of the record must outlive the loads. -/
theorem reg_run_restores (hnodup : (cells.map Prod.snd).Nodup) (hbase : ∀ c ∈ cells, base ≠ c.2)
    (h : (off, r) ∈ cells) :
    (run s (restores base cells)).reg r = s.mem (s.reg base + off) := by
  induction cells generalizing s with
  | nil => cases h
  | cons c cells ih =>
    obtain ⟨hc, hnodup⟩ := List.nodup_cons.mp hnodup
    have hkept : (exec s (.load c.2 base c.1)).reg base = s.reg base :=
      setReg_of_ne (hbase c (List.mem_cons_self ..))
    rcases List.mem_cons.mp h with rfl | hmem
    · have hlater : ∀ d ∈ cells, r ≠ d.2 := by
        intro d hd he
        exact hc (List.mem_map.mpr ⟨d, hd, he.symm⟩)
      refine (reg_run_restores_of_ne (s := exec s (.load r base off)) hlater).trans ?_
      exact setReg_self
    · have hrest := ih (s := exec s (.load c.2 base c.1)) hnodup
        (fun d hd => hbase d (List.mem_cons_of_mem _ hd)) hmem
      rw [hkept] at hrest
      exact hrest

end UnixCodes.LoadStore
