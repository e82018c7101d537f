import Mathlib.Tactic.FinCases
import UnixCodes.Lib.LoadStore

/-! `acosw.S` for its three processors, and the switch between two `aco_t.reg` that it carries
out. -/
namespace UnixCodes.Libaco

open LoadStore

inductive Arch
  | i386
  | x86_64
  | aarch64
  deriving DecidableEq

/-- `sizeof(void*)`. -/
def Arch.word : Arch → ℕ
  | .i386 => 4
  | .x86_64 | .aarch64 => 8

def Arch.regIdxRetaddr : Arch → ℕ
  | .i386 => 0
  | .x86_64 => 4
  | .aarch64 => 13

def Arch.regIdxSp : Arch → ℕ
  | .i386 => 1
  | .x86_64 => 5
  | .aarch64 => 14

/-- `aco_t.reg`, each cell under its offset in bytes. Of the processor of `aarch64`, the offsets
behind it stand for `d8` to `d15`, for which it has no cells. -/
abbrev Reg := ℕ → ℕ

def Arch.retaddr (A : Arch) : ℕ := A.word * A.regIdxRetaddr

def Arch.sp (A : Arch) : ℕ := A.word * A.regIdxSp

/-- The control words behind `ACO_REG_IDX_FPU`; on the x86 processors there are two of them. -/
def Arch.fpu : Arch → List ℕ
  | .i386 => [0x18, 0x1c]
  | .x86_64 => [0x40, 0x44]
  | .aarch64 => [0x78]

/-- The registers that `acosw.S` names, and the others that a call has to preserve. -/
inductive Register
  | eax | ecx | edx | ebx | esp | ebp | esi | edi
  | rax | rcx | rdx | rbx | rsp | rbp | rsi | rdi | r12 | r13 | r14 | r15
  | x (n : ℕ) | sp | d (n : ℕ)
  | fpucw | mxcsr | fpcr
  deriving DecidableEq

open Register

/-- `x30`. -/
abbrev lr : Register := x 30

def stp (r q base : Register) (off : ℕ) : List (Instr Register) :=
  [.store base off r, .store base (off + 8) q]

def ldp (r q base : Register) (off : ℕ) : List (Instr Register) :=
  [.load r base off, .load q base (off + 8)]

/-- The code under the label `acosw`. -/
def acoswCode : Arch → List (Instr Register)
  | .i386 =>
    [.load eax esp 0x4, .load edx esp 0, .lea ecx esp 0x4,
     .store eax 0x8 ebp, .store eax 0x4 ecx, .store eax 0x0 edx, .store eax 0xc edi,
     .load ecx esp 0x8,
     .store eax 0x10 esi, .store eax 0x14 ebx, .store eax 0x18 fpucw, .store eax 0x1c mxcsr,
     .load edx ecx 0x4, .load ebp ecx 0x8, .load eax ecx 0x0, .load edi ecx 0xc,
     .load esi ecx 0x10, .load ebx ecx 0x14, .load fpucw ecx 0x18, .load mxcsr ecx 0x1c,
     .clear ecx, .mov esp edx, .clear edx, .jmp eax]
  | .x86_64 =>
    [.load rdx rsp 0, .lea rcx rsp 0x8,
     .store rdi 0x0 r12, .store rdi 0x8 r13, .store rdi 0x10 r14, .store rdi 0x18 r15,
     .store rdi 0x20 rdx, .store rdi 0x28 rcx, .store rdi 0x30 rbx, .store rdi 0x38 rbp,
     .store rdi 0x40 fpucw, .store rdi 0x44 mxcsr,
     .load r12 rsi 0x0, .load r13 rsi 0x8, .load r14 rsi 0x10, .load r15 rsi 0x18,
     .load rax rsi 0x20, .load rcx rsi 0x28, .load rbx rsi 0x30, .load rbp rsi 0x38,
     .load fpucw rsi 0x40, .load mxcsr rsi 0x44,
     .mov rsp rcx, .jmp rax]
  | .aarch64 =>
    [.mov (x 2) lr] ++
    stp (x 16) (x 17) (x 0) 0x00 ++ stp (x 19) (x 20) (x 0) 0x10 ++
    stp (x 21) (x 22) (x 0) 0x20 ++ stp (x 23) (x 24) (x 0) 0x30 ++
    stp (x 25) (x 26) (x 0) 0x40 ++ stp (x 27) (x 28) (x 0) 0x50 ++
    stp (x 29) lr (x 0) 0x60 ++
    [.mov (x 5) sp, .store (x 0) 0x70 (x 5),
     .mov (x 5) fpcr, .store (x 1) 0x78 (x 5)] ++
    ldp (x 16) (x 17) (x 1) 0x00 ++ ldp (x 19) (x 20) (x 1) 0x10 ++
    ldp (x 21) (x 22) (x 1) 0x20 ++ ldp (x 23) (x 24) (x 1) 0x30 ++
    ldp (x 25) (x 26) (x 1) 0x40 ++ ldp (x 27) (x 28) (x 1) 0x50 ++
    ldp (x 29) (x 30) (x 1) 0x60 ++
    [.load (x 3) (x 1) 0x70, .mov sp (x 3),
     .load (x 3) (x 1) 0x78, .mov fpcr (x 3),
     .jmp (x 30)]

/-- The arguments of `acosw`: on the stack above the return address, or in registers. -/
def Arch.fromCo (A : Arch) (s : State Register) : ℕ :=
  match A with
  | .i386 => s.mem (s.reg esp + 0x4)
  | .x86_64 => s.reg rdi
  | .aarch64 => s.reg (x 0)

def Arch.toCo (A : Arch) (s : State Register) : ℕ :=
  match A with
  | .i386 => s.mem (s.reg esp + 0x8)
  | .x86_64 => s.reg rsi
  | .aarch64 => s.reg (x 1)

/-- The registers that a function has to preserve by the calling convention of its processor, beside
the stack pointer. -/
def Arch.calleeSaved : Arch → List Register
  | .i386 => [ebx, esi, edi, ebp, fpucw, mxcsr]
  | .x86_64 => [rbx, rbp, r12, r13, r14, r15, fpucw, mxcsr]
  | .aarch64 => (List.range' 19 11).map x ++ (List.range' 8 8).map d

/-- The registers that have places in `aco_t.reg`. -/
def Arch.kept : Arch → List (ℕ × Register)
  | .i386 => [(0x8, ebp), (0xc, edi), (0x10, esi), (0x14, ebx), (0x18, fpucw), (0x1c, mxcsr)]
  | .x86_64 =>
    [(0x0, r12), (0x8, r13), (0x10, r14), (0x18, r15), (0x30, rbx), (0x38, rbp),
     (0x40, fpucw), (0x44, mxcsr)]
  | .aarch64 =>
    [(0x00, x 16), (0x08, x 17), (0x10, x 19), (0x18, x 20), (0x20, x 21), (0x28, x 22),
     (0x30, x 23), (0x38, x 24), (0x40, x 25), (0x48, x 26), (0x50, x 27), (0x58, x 28),
     (0x60, x 29), (0x78, fpcr)]

/-- The registers that have none, though a function has to preserve them. -/
def Arch.unsaved : Arch → List (ℕ × Register)
  | .i386 | .x86_64 => []
  | .aarch64 =>
    [(0x80, d 8), (0x88, d 9), (0x90, d 10), (0x98, d 11), (0xa0, d 12), (0xa8, d 13),
     (0xb0, d 14), (0xb8, d 15)]

/-- The places of `aco_t.reg`. -/
def Arch.cells (A : Arch) : List ℕ := A.retaddr :: A.sp :: A.kept.map Prod.fst

/-- A processor as `aco_t.reg` would record it. -/
def Arch.record (A : Arch) (pc stack : ℕ) (reg : Register → ℕ) : Reg := fun off =>
  if off = A.retaddr then pc
  else if off = A.sp then stack
  else (((A.kept ++ A.unsaved).lookup off).map reg).getD 0

/-- What the code that has called `acosw` is to find when it goes on: it goes on behind the call,
with the return address popped. -/
def Arch.caller (A : Arch) (s : State Register) : Reg :=
  match A with
  | .i386 => Arch.i386.record (s.mem (s.reg esp)) (s.reg esp + 4) s.reg
  | .x86_64 => Arch.x86_64.record (s.mem (s.reg rsp)) (s.reg rsp + 8) s.reg
  | .aarch64 => Arch.aarch64.record (s.reg lr) (s.reg Register.sp) s.reg

/-- What the code that the last instruction of `acosw` jumps to finds. -/
def Arch.resumed (A : Arch) (s : State Register) : Reg :=
  match A with
  | .i386 => Arch.i386.record s.pc (s.reg esp) s.reg
  | .x86_64 => Arch.x86_64.record s.pc (s.reg rsp) s.reg
  | .aarch64 => Arch.aarch64.record s.pc (s.reg Register.sp) s.reg

/-- The processor and the two records after a switch. -/
structure Switch where
  cpu : Reg
  fromReg : Reg
  toReg : Reg

/-- On `aarch64` the control word of the processor is stored into the record of the coroutine that
is switched to, from where it is loaded again, and `d8` to `d15` are left alone. -/
def acosw (A : Arch) (cpu fromReg toReg : Reg) : Switch :=
  match A with
  | .i386 | .x86_64 => ⟨toReg, cpu, toReg⟩
  | .aarch64 =>
    ⟨fun off => if off < 0x78 then toReg off else cpu off,
     fun off => if off < 0x78 then cpu off else fromReg off,
     Function.update toReg 0x78 (cpu 0x78)⟩

/-- A register that belongs to its coroutine alone; the control word of `aarch64` and its `d8` to
`d15` do not. -/
def Arch.Private (A : Arch) (off : ℕ) : Prop := ¬ (A = .aarch64 ∧ 0x78 ≤ off)

instance (A : Arch) (off : ℕ) : Decidable (A.Private off) := by
  unfold Arch.Private
  infer_instance

theorem sp_private (A : Arch) : A.Private A.sp := by
  cases A <;> decide

section

variable {A : Arch} {cpu fromReg toReg : Reg} {off : ℕ}

theorem acosw_cpu (h : A.Private off) : (acosw A cpu fromReg toReg).cpu off = toReg off := by
  cases A with
  | i386 => rfl
  | x86_64 => rfl
  | aarch64 => exact if_pos (not_le.mp fun he => h ⟨rfl, he⟩)

theorem acosw_fromReg (h : A.Private off) : (acosw A cpu fromReg toReg).fromReg off = cpu off := by
  cases A with
  | i386 => rfl
  | x86_64 => rfl
  | aarch64 => exact if_pos (not_le.mp fun he => h ⟨rfl, he⟩)

/-- What is not private stays in the processor. -/
theorem acosw_shared (h : ¬ A.Private off) : (acosw A cpu fromReg toReg).cpu off = cpu off := by
  obtain ⟨rfl, hle⟩ := not_not.mp h
  exact if_neg (not_lt.mpr hle)

end

/-- The records lie apart, and apart from the arguments. -/
structure Arch.Apart (A : Arch) (s : State Register) : Prop where
  records : ∀ i ∈ A.cells, ∀ j ∈ A.cells, A.fromCo s + i ≠ A.toCo s + j
  arguments : A = .i386 → ∀ i ∈ A.cells, s.reg esp + 0x8 ≠ A.fromCo s + i

/-- The switch that a processor in state `s` has before it. -/
def Arch.switch (A : Arch) (s : State Register) : Switch :=
  acosw A (A.caller s) (fun off => s.mem (A.fromCo s + off)) (fun off => s.mem (A.toCo s + off))

/-- The code has carried out the switch, and has written nothing else. -/
structure Arch.Switched (A : Arch) (s t : State Register) : Prop where
  fromReg : ∀ off ∈ A.cells, t.mem (A.fromCo s + off) = (A.switch s).fromReg off
  toReg : ∀ off ∈ A.cells, t.mem (A.toCo s + off) = (A.switch s).toReg off
  cpu : ∀ off ∈ A.cells, A.resumed t off = (A.switch s).cpu off
  unsaved : ∀ c ∈ A.unsaved, A.resumed t c.1 = (A.switch s).cpu c.1 ∧ t.reg c.2 = s.reg c.2
  calleeSaved : ∀ r ∈ A.calleeSaved, r ∈ A.kept.map Prod.snd ∨ r ∈ A.unsaved.map Prod.snd
  frame : ∀ a, (∀ off ∈ A.cells, a ≠ A.fromCo s + off ∧ a ≠ A.toCo s + off) → t.mem a = s.mem a

variable {A : Arch} {s t : State Register} {off : ℕ}

theorem kept_or_unsaved (A : Arch) :
    ∀ r ∈ A.calleeSaved, r ∈ A.kept.map Prod.snd ∨ r ∈ A.unsaved.map Prod.snd := by
  cases A <;> decide

/-- On the x86 processors a switch stores one record and loads the other. -/
theorem switched_of_ne_aarch64 (hA : A ≠ .aarch64) (h : A.Apart s)
    (hfrom : ∀ off ∈ A.cells, t.mem (A.fromCo s + off) = A.caller s off)
    (hcpu : ∀ off ∈ A.cells, A.resumed t off = s.mem (A.toCo s + off))
    (hframe : ∀ a, (∀ off ∈ A.cells, a ≠ A.fromCo s + off) → t.mem a = s.mem a) :
    A.Switched s t := by
  have hswitch : A.switch s =
      ⟨fun off => s.mem (A.toCo s + off), A.caller s, fun off => s.mem (A.toCo s + off)⟩ := by
    cases A with
    | i386 => rfl
    | x86_64 => rfl
    | aarch64 => exact absurd rfl hA
  have hnone : A.unsaved = [] := by
    cases A with
    | i386 => rfl
    | x86_64 => rfl
    | aarch64 => exact absurd rfl hA
  refine ⟨?_, ?_, ?_, by simp [hnone], kept_or_unsaved A,
    fun a ha => hframe a fun off hoff => (ha off hoff).1⟩
  · simpa [hswitch] using hfrom
  · intro off hoff
    rw [hswitch]
    exact hframe _ fun i hi he => h.records i hi off hoff he.symm
  · simpa [hswitch] using hcpu

theorem exists_register {cells : List ℕ} (regs : List (ℕ × Register))
    (h : ∀ off ∈ cells, off ∈ regs.map Prod.fst) (hoff : off ∈ cells) : ∃ r, (off, r) ∈ regs := by
  obtain ⟨c, hc, rfl⟩ := List.mem_map.mp (h off hoff)
  exact ⟨c.2, hc⟩

/-- The registers that the code of `x86_64` stores, and those that it loads. -/
def x64Saved : List (ℕ × Register) :=
  [(0x0, r12), (0x8, r13), (0x10, r14), (0x18, r15), (0x20, rdx), (0x28, rcx), (0x30, rbx),
   (0x38, rbp), (0x40, fpucw), (0x44, mxcsr)]

def x64Loaded : List (ℕ × Register) :=
  [(0x0, r12), (0x8, r13), (0x10, r14), (0x18, r15), (0x20, rax), (0x28, rcx), (0x30, rbx),
   (0x38, rbp), (0x40, fpucw), (0x44, mxcsr)]

theorem acoswCode_x86_64 : acoswCode .x86_64 =
    [.load rdx rsp 0, .lea rcx rsp 0x8] ++ saves rdi x64Saved ++ restores rsi x64Loaded ++
      [.mov rsp rcx, .jmp rax] := rfl

theorem switched_x86_64 (h : Arch.x86_64.Apart s) :
    Arch.x86_64.Switched s (run s (acoswCode .x86_64)) := by
  obtain ⟨s₁, hs₁⟩ : ∃ s₁, s₁ = run s [.load rdx rsp 0, .lea rcx rsp 0x8] := ⟨_, rfl⟩
  obtain ⟨s₂, hs₂⟩ : ∃ s₂, s₂ = run s₁ (saves rdi x64Saved) := ⟨_, rfl⟩
  obtain ⟨s₃, hs₃⟩ : ∃ s₃, s₃ = run s₂ (restores rsi x64Loaded) := ⟨_, rfl⟩
  have hrun : run s (acoswCode .x86_64) = run s₃ [.mov rsp rcx, .jmp rax] := by
    rw [acoswCode_x86_64, run_append, run_append, run_append, ← hs₁, ← hs₂, ← hs₃]
  rw [hrun]
  have hmem : (run s₃ [.mov rsp rcx, .jmp rax]).mem = s₂.mem := by
    rw [hs₃]
    exact mem_run_restores
  have hfrom : s₁.reg rdi = s.reg rdi := by simp [hs₁, exec, setReg_of_ne]
  have hto : s₂.reg rsi = s.reg rsi := by simp [hs₂, hs₁, exec, setReg_of_ne]
  have hstored : ∀ c ∈ x64Saved, Arch.x86_64.caller s c.1 = s₁.reg c.2 := by
    intro c hc
    rw [hs₁]
    fin_cases hc <;> rfl
  have hloaded : ∀ c ∈ x64Loaded,
      Arch.x86_64.resumed (run s₃ [.mov rsp rcx, .jmp rax]) c.1 = s₃.reg c.2 := by
    intro c hc
    fin_cases hc <;> rfl
  have hframe : ∀ a, (∀ off ∈ Arch.x86_64.cells, a ≠ s.reg rdi + off) → s₂.mem a = s.mem a := by
    intro a ha
    rw [hs₂, mem_run_saves_of_ne, hs₁]
    · rfl
    · rw [hfrom]
      intro c hc
      apply ha
      revert c
      decide
  apply switched_of_ne_aarch64 (by decide) h
  · intro off hoff
    obtain ⟨r, hr⟩ := exists_register x64Saved (by decide) hoff
    rw [hmem, hstored _ hr, hs₂]
    change (run s₁ (saves rdi x64Saved)).mem (s.reg rdi + off) = _
    rw [← hfrom]
    exact mem_run_saves (by decide) hr
  · intro off hoff
    obtain ⟨r, hr⟩ := exists_register x64Loaded (by decide) hoff
    rw [hloaded _ hr, hs₃, reg_run_restores (by decide) (by decide) hr, hto]
    exact hframe _ fun i hi he => h.records i hi off hoff he.symm
  · rw [hmem]
    exact hframe

def i386Saved₁ : List (ℕ × Register) := [(0x8, ebp), (0x4, ecx), (0x0, edx), (0xc, edi)]

def i386Saved₂ : List (ℕ × Register) := [(0x10, esi), (0x14, ebx), (0x18, fpucw), (0x1c, mxcsr)]

def i386Loaded : List (ℕ × Register) :=
  [(0x4, edx), (0x8, ebp), (0x0, eax), (0xc, edi), (0x10, esi), (0x14, ebx), (0x18, fpucw),
   (0x1c, mxcsr)]

theorem acoswCode_i386 : acoswCode .i386 =
    [.load eax esp 0x4, .load edx esp 0, .lea ecx esp 0x4] ++ saves eax i386Saved₁ ++
      [.load ecx esp 0x8] ++ saves eax i386Saved₂ ++ restores ecx i386Loaded ++
      [.clear ecx, .mov esp edx, .clear edx, .jmp eax] := rfl

theorem switched_i386 (h : Arch.i386.Apart s) :
    Arch.i386.Switched s (run s (acoswCode .i386)) := by
  obtain ⟨s₁, hs₁⟩ : ∃ s₁, s₁ = run s [.load eax esp 0x4, .load edx esp 0, .lea ecx esp 0x4] :=
    ⟨_, rfl⟩
  obtain ⟨s₂, hs₂⟩ : ∃ s₂, s₂ = run s₁ (saves eax i386Saved₁) := ⟨_, rfl⟩
  obtain ⟨s₃, hs₃⟩ : ∃ s₃, s₃ = run s₂ [.load ecx esp 0x8] := ⟨_, rfl⟩
  obtain ⟨s₄, hs₄⟩ : ∃ s₄, s₄ = run s₃ (saves eax i386Saved₂) := ⟨_, rfl⟩
  obtain ⟨s₅, hs₅⟩ : ∃ s₅, s₅ = run s₄ (restores ecx i386Loaded) := ⟨_, rfl⟩
  have hrun : run s (acoswCode .i386) =
      run s₅ [.clear ecx, .mov esp edx, .clear edx, .jmp eax] := by
    rw [acoswCode_i386, run_append, run_append, run_append, run_append, run_append,
      ← hs₁, ← hs₂, ← hs₃, ← hs₄, ← hs₅]
  rw [hrun]
  have hmem : (run s₅ [.clear ecx, .mov esp edx, .clear edx, .jmp eax]).mem = s₄.mem := by
    rw [hs₅]
    exact mem_run_restores
  have hfrom : s₁.reg eax = Arch.i386.fromCo s := by
    simp [hs₁, exec, setReg_of_ne, Arch.fromCo]
  have hregs : s₂.reg = s₁.reg := by rw [hs₂, reg_run_saves]
  -- the load of `to_co` between the stores touches nothing that is stored
  have hsaved : s₄.mem = (run s₁ (saves eax (i386Saved₁ ++ i386Saved₂))).mem := by
    have happend : saves eax (i386Saved₁ ++ i386Saved₂) =
        saves eax i386Saved₁ ++ saves eax i386Saved₂ := List.map_append
    rw [hs₄, happend, run_append, ← hs₂]
    apply mem_run_saves_congr
    · simp [hs₃, exec]
    · simp [hs₃, exec, setReg_of_ne]
    · simp [i386Saved₂, hs₃, exec, setReg_of_ne]
  have hframe : ∀ a, (∀ off ∈ Arch.i386.cells, a ≠ Arch.i386.fromCo s + off) →
      s₄.mem a = s.mem a := by
    intro a ha
    rw [hsaved, mem_run_saves_of_ne, hs₁]
    · rfl
    · rw [hfrom]
      intro c hc
      apply ha
      revert c
      decide
  have hto : s₄.reg ecx = Arch.i386.toCo s := by
    have harg : s₂.mem (s.reg esp + 0x8) = s.mem (s.reg esp + 0x8) := by
      rw [hs₂, mem_run_saves_of_ne, hs₁]
      · rfl
      · rw [hfrom]
        intro c hc
        apply h.arguments rfl
        revert c
        decide
    have hesp : s₂.reg esp = s.reg esp := by simp [hs₂, hs₁, exec, setReg_of_ne]
    simp [hs₄, hs₃, exec, hesp, harg, Arch.toCo]
  have hstored : ∀ c ∈ i386Saved₁ ++ i386Saved₂, Arch.i386.caller s c.1 = s₁.reg c.2 := by
    intro c hc
    rw [hs₁]
    fin_cases hc <;> rfl
  have hloaded : ∀ c ∈ i386Loaded, Arch.i386.resumed
      (run s₅ [.clear ecx, .mov esp edx, .clear edx, .jmp eax]) c.1 = s₅.reg c.2 := by
    intro c hc
    fin_cases hc <;> rfl
  apply switched_of_ne_aarch64 (by decide) h
  · intro off hoff
    obtain ⟨r, hr⟩ := exists_register (i386Saved₁ ++ i386Saved₂) (by decide) hoff
    rw [hmem, hstored _ hr, hsaved, ← hfrom]
    exact mem_run_saves (by decide) hr
  · intro off hoff
    obtain ⟨r, hr⟩ := exists_register i386Loaded (by decide) hoff
    rw [hloaded _ hr, hs₅, reg_run_restores (by decide) (by decide) hr, hto]
    exact hframe _ fun i hi he => h.records i hi off hoff he.symm
  · rw [hmem]
    exact hframe

/-- The pairs of `stp` and `ldp`; the stack pointer and `fpcr` go through `x5` and `x3`. -/
def a64Pairs : List (ℕ × Register) :=
  [(0x00, x 16), (0x08, x 17), (0x10, x 19), (0x18, x 20), (0x20, x 21), (0x28, x 22),
   (0x30, x 23), (0x38, x 24), (0x40, x 25), (0x48, x 26), (0x50, x 27), (0x58, x 28),
   (0x60, x 29), (0x68, x 30)]

theorem acoswCode_aarch64 : acoswCode .aarch64 =
    [.mov (x 2) lr] ++ saves (x 0) a64Pairs ++
      [.mov (x 5) sp, .store (x 0) 0x70 (x 5), .mov (x 5) fpcr, .store (x 1) 0x78 (x 5)] ++
      restores (x 1) a64Pairs ++
      [.load (x 3) (x 1) 0x70, .mov sp (x 3), .load (x 3) (x 1) 0x78, .mov fpcr (x 3),
       .jmp (x 30)] := rfl

theorem mem_a64_cells (hoff : off ∈ Arch.aarch64.cells) :
    (∃ r, (off, r) ∈ a64Pairs) ∨ off = 0x70 ∨ off = 0x78 := by
  have hcases : ∀ i ∈ Arch.aarch64.cells, i ∈ a64Pairs.map Prod.fst ∨ i = 0x70 ∨ i = 0x78 := by
    decide
  refine (hcases off hoff).imp_left fun hmem => ?_
  obtain ⟨c, hc, rfl⟩ := List.mem_map.mp hmem
  exact ⟨c.2, hc⟩

theorem switched_aarch64 (h : Arch.aarch64.Apart s) :
    Arch.aarch64.Switched s (run s (acoswCode .aarch64)) := by
  obtain ⟨s₁, hs₁⟩ : ∃ s₁, s₁ = run s [.mov (x 2) lr] := ⟨_, rfl⟩
  obtain ⟨s₂, hs₂⟩ : ∃ s₂, s₂ = run s₁ (saves (x 0) a64Pairs) := ⟨_, rfl⟩
  obtain ⟨s₃, hs₃⟩ : ∃ s₃, s₃ = run s₂ [.mov (x 5) sp, .store (x 0) 0x70 (x 5), .mov (x 5) fpcr,
    .store (x 1) 0x78 (x 5)] := ⟨_, rfl⟩
  obtain ⟨s₄, hs₄⟩ : ∃ s₄, s₄ = run s₃ (restores (x 1) a64Pairs) := ⟨_, rfl⟩
  obtain ⟨t, ht⟩ : ∃ t, t = run s₄ [.load (x 3) (x 1) 0x70, .mov sp (x 3), .load (x 3) (x 1) 0x78,
    .mov fpcr (x 3), .jmp (x 30)] := ⟨_, rfl⟩
  have hrun : run s (acoswCode .aarch64) = t := by
    rw [acoswCode_aarch64, run_append, run_append, run_append, run_append, ← hs₁, ← hs₂, ← hs₃,
      ← hs₄, ← ht]
  rw [hrun]
  have hregs : s₂.reg = s₁.reg := by rw [hs₂, reg_run_saves]
  have hfrom : s₁.reg (x 0) = s.reg (x 0) := by simp [hs₁, exec, setReg_of_ne]
  have hload : t.mem = s₃.mem := by
    rw [ht]
    exact (congrArg State.mem hs₄).trans mem_run_restores
  have hmem : t.mem = Function.update (Function.update s₂.mem (s.reg (x 0) + 0x70) (s.reg sp))
      (s.reg (x 1) + 0x78) (s.reg fpcr) := by
    simp [hload, hs₃, exec, setReg_of_ne, hregs, hs₁]
  have hsaved : ∀ a, (∀ off ∈ Arch.aarch64.cells, a ≠ s.reg (x 0) + off) → s₂.mem a = s.mem a := by
    intro a ha
    rw [hs₂, mem_run_saves_of_ne, hs₁]
    · rfl
    · rw [hfrom]
      intro c hc
      apply ha
      revert c
      decide
  have hapart : ∀ i ∈ Arch.aarch64.cells, ∀ j ∈ Arch.aarch64.cells,
      s.reg (x 0) + i ≠ s.reg (x 1) + j := h.records
  have hkept : ∀ off ∈ Arch.aarch64.cells, off ≠ 0x78 →
      t.mem (s.reg (x 1) + off) = s.mem (s.reg (x 1) + off) := by
    intro off hoff hne
    rw [hmem, Function.update_of_ne (by omega),
      Function.update_of_ne (hapart 0x70 (by decide) off hoff).symm]
    exact hsaved _ fun i hi => (hapart i hi off hoff).symm
  have hplace : ∀ c ∈ a64Pairs, c.1 ∈ Arch.aarch64.cells ∧ c.1 ≠ 0x70 ∧ c.1 < 0x78 := by decide
  have hpair : ∀ c ∈ a64Pairs, Arch.aarch64.caller s c.1 = s₁.reg c.2 := by
    intro c hc
    rw [hs₁]
    fin_cases hc <;> rfl
  have hstack : Arch.aarch64.caller s 0x70 = s.reg sp := rfl
  have hfpcr : Arch.aarch64.caller s 0x78 = s.reg fpcr := rfl
  have hto₃ : s₃.reg (x 1) = s.reg (x 1) := by simp [hs₃, exec, setReg_of_ne, hregs, hs₁]
  have hto : s₄.reg (x 1) = s.reg (x 1) := by
    rw [hs₄, reg_run_restores_of_ne (by decide), hto₃]
  have hloaded : ∀ c ∈ a64Pairs, Arch.aarch64.resumed t c.1 = s₄.reg c.2 := by
    intro c hc
    rw [ht]
    fin_cases hc <;> rfl
  have hthrough : ∀ off ∈ [0x70, 0x78],
      Arch.aarch64.resumed t off = t.mem (s.reg (x 1) + off) := by
    intro off hoff
    rw [← hto, ht]
    fin_cases hoff <;> rfl
  refine ⟨?_, ?_, ?_, ?_, kept_or_unsaved .aarch64, ?_⟩
  · intro off hoff
    change t.mem (s.reg (x 0) + off) =
      if off < 0x78 then Arch.aarch64.caller s off else s.mem (s.reg (x 0) + off)
    rw [hmem, Function.update_of_ne (hapart off hoff 0x78 (by decide))]
    rcases mem_a64_cells hoff with ⟨r, hr⟩ | rfl | rfl
    · obtain ⟨-, h70, h78⟩ := hplace _ hr
      simp only at h70 h78
      rw [Function.update_of_ne (by omega), if_pos h78, hpair _ hr, hs₂, ← hfrom]
      exact mem_run_saves (by decide) hr
    · rw [Function.update_self, if_pos (by decide), hstack]
    · rw [Function.update_of_ne (by omega), if_neg (by decide), hs₂, mem_run_saves_of_ne, hs₁]
      · rfl
      · rw [hfrom]
        intro c hc he
        have hlt : c.1 < 0x78 := (hplace c hc).2.2
        omega
  · intro off hoff
    change t.mem (s.reg (x 1) + off) = Function.update (fun off => s.mem (s.reg (x 1) + off)) 0x78
      (Arch.aarch64.caller s 0x78) off
    by_cases h78 : off = 0x78
    · rw [h78, hmem, Function.update_self, Function.update_self, hfpcr]
    · rw [Function.update_of_ne h78]
      exact hkept off hoff h78
  · intro off hoff
    change Arch.aarch64.resumed t off =
      if off < 0x78 then s.mem (s.reg (x 1) + off) else Arch.aarch64.caller s off
    rcases mem_a64_cells hoff with ⟨r, hr⟩ | rfl | rfl
    · have h78 : off < 0x78 := (hplace _ hr).2.2
      rw [if_pos h78, hloaded _ hr, hs₄, reg_run_restores (by decide) (by decide) hr, hto₃, ← hload]
      exact hkept off hoff h78.ne
    · rw [if_pos (by decide), hthrough _ (by decide)]
      exact hkept 0x70 hoff (by decide)
    · rw [if_neg (by decide), hthrough _ (by decide), hmem, Function.update_self, hfpcr]
  · intro c hc
    have huntouched : ∀ c ∈ Arch.aarch64.unsaved, ∀ i ∈ acoswCode .aarch64,
        i.dst ≠ some c.2 := by decide
    have hsame : t.reg c.2 = s.reg c.2 := hrun ▸ reg_run_of_ne (huntouched c hc)
    refine ⟨?_, hsame⟩
    have hread : Arch.aarch64.resumed t c.1 = t.reg c.2 ∧
        (Arch.aarch64.switch s).cpu c.1 = s.reg c.2 := by
      fin_cases hc <;> exact ⟨rfl, rfl⟩
    rw [hread.1, hread.2, hsame]
  · intro a ha
    have hfar : ∀ off ∈ Arch.aarch64.cells, a ≠ s.reg (x 0) + off ∧ a ≠ s.reg (x 1) + off := ha
    rw [hmem, Function.update_of_ne (hfar 0x78 (by decide)).2,
      Function.update_of_ne (hfar 0x70 (by decide)).1]
    exact hsaved a fun off hoff => (hfar off hoff).1

/-- The code of every processor carries out `acosw`; `d8` to `d15` of `aarch64` are neither stored
nor loaded. -/
theorem acoswCode_switched (A : Arch) (s : State Register) (h : A.Apart s) :
    A.Switched s (run s (acoswCode A)) := by
  cases A with
  | i386 => exact switched_i386 h
  | x86_64 => exact switched_x86_64 h
  | aarch64 => exact switched_aarch64 h

/-- The records at 1000 and 2000, on every processor. -/
def farState : State Register where
  reg r := if r = rdi ∨ r = x 0 then 1000 else if r = rsi ∨ r = x 1 then 2000 else 0
  mem a := if a = 4 then 1000 else if a = 8 then 2000 else 0
  pc := 0

theorem farState_apart (A : Arch) : A.Apart farState := by
  cases A with
  | i386 => exact ⟨by decide, by decide⟩
  | x86_64 => exact ⟨by decide, by decide⟩
  | aarch64 => exact ⟨by decide, by decide⟩

theorem acoswCode_switched_farState :
    Arch.aarch64.Switched farState (run farState (acoswCode .aarch64)) :=
  acoswCode_switched .aarch64 farState (farState_apart .aarch64)

end UnixCodes.Libaco
