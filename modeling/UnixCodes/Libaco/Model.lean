import UnixCodes.Lib.Transition
import UnixCodes.Libaco.ShareStack

/-! Coroutines that take turns on share stacks: `aco_create`, `aco_resume`, `aco_yield`, `aco_exit`
and `aco_destroy` of one thread. -/
namespace UnixCodes.Libaco

/-- A block of `malloc`. -/
structure Block where
  addr : ℕ
  sz : ℕ
  bytes : Bytes

/-- Where the next block lies, and what it holds, for each size. -/
abbrev Malloc := ℕ → ℕ × Bytes

def Malloc.block (malloc : Malloc) (sz : ℕ) : Block := ⟨(malloc sz).1, sz, (malloc sz).2⟩

/-- `aco_save_stack_t`. -/
structure SaveStack where
  ptr : Option Block
  sz : ℕ
  validSz : ℕ
  maxCpsz : ℕ
  ctSave : ℕ
  ctRestore : ℕ

/-- `aco_t` of a coroutine other than the main one. -/
structure Aco where
  reg : Reg
  arg : ℕ
  isEnd : Bool
  fp : ℕ
  saveStack : SaveStack
  shareStack : ℕ

/-- `aco_gtls_co`. -/
inductive CoPtr
  | null
  | main
  | co (c : ℕ)
  deriving DecidableEq

/-- `fpu` is `aco_gtls_fpucw_mxcsr`, and `mainReg` is what the main coroutine has in its `aco_t`. -/
structure Machine where
  cpu : Reg
  gtls : CoPtr
  mainReg : Reg
  fpu : Reg
  co : ℕ → Option Aco
  stack : ℕ → Option ShareStack

def deref {α : Type} : Option α → Except Fault α
  | some a => .ok a
  | none => .error .dangling

/-- Outside the objects a copy is undefined. -/
def inBounds (p : Prop) [Decidable p] : Except Fault Unit :=
  if p then .ok () else .error .overrun

/-- `x86_64` has a copy of its own for short spans. -/
def Arch.copy (A : Arch) (dst : Bytes) (d : ℕ) (src : Bytes) (s sz : ℕ) : Bytes :=
  if A = .x86_64 then optimizedMemcpyDropIn dst d src s sz else memcpy dst d src s sz

/-- Where the valid part of a share stack begins. -/
def ShareStack.low (stk : ShareStack) : ℕ := stk.alignHighptr - stk.alignLimit

/-- The registers of a coroutine that has not run yet. -/
def initialReg (A : Arch) (fp ret : ℕ) (fpu : Reg) : Reg := fun off =>
  if off = A.retaddr then fp
  else if off = A.sp then ret
  else if off ∈ A.fpu then fpu off
  else 0

/-- `aco_create` of a coroutine other than the main one, at the address `p`. -/
def acoCreate (A : Arch) (m : Machine) (p k saveStackSz fp arg : ℕ) (malloc : Malloc) :
    Except Fault Machine := do
  let stk ← deref (m.stack k)
  let saveStackSz := if saveStackSz = 0 then 64 else saveStackSz
  let co : Aco :=
    { reg := initialReg A fp stk.alignRetptr m.fpu
      arg := arg
      isEnd := false
      fp := fp
      saveStack := ⟨some (malloc.block saveStackSz), saveStackSz, 0, 0, 0, 0⟩
      shareStack := k }
  return { m with co := Function.update m.co p (some co) }

/-- The loop that doubles the size of a save stack; no size survives as many rounds as it has
bits. -/
def growSz (A : Arch) : ℕ → ℕ → ℕ → Except Fault ℕ
  | 0, _, _ => .error .assertion
  | fuel + 1, sz, validSz => do
    let sz := (sz <<< 1) % A.size
    acoAssert (sz > 0)
    if sz ≥ validSz then
      return sz
    else
      growSz A fuel sz validSz

/-- Room for `valid_sz` bytes. -/
def SaveStack.grow (A : Arch) (malloc : Malloc) (save : SaveStack) : Except Fault SaveStack := do
  if save.sz < save.validSz then
    let sz ← growSz A A.bits save.sz save.validSz
    return { save with ptr := some (malloc.block sz), sz := sz }
  else
    return save

def SaveStack.noteCpsz (save : SaveStack) : SaveStack :=
  if save.validSz > save.maxCpsz then { save with maxCpsz := save.validSz } else save

/-- The owner of the share stack `k` leaves it, in `aco_resume`. -/
def saveOwner (A : Arch) (malloc : Malloc) (k : ℕ) (stk : ShareStack) (owner : Aco) :
    Except Fault (Aco × ShareStack) := do
  acoAssert (owner.shareStack = k)
  let sp := owner.reg A.sp
  acoAssert (stk.alignRetptr ≥ sp ∧ stk.alignHighptr - stk.alignLimit ≤ sp)
  let save ← { owner.saveStack with validSz := stk.alignRetptr - sp }.grow A malloc
  let save ←
    if save.validSz > 0 then do
      let blk ← deref save.ptr
      inBounds (save.validSz ≤ blk.sz ∧ stk.ptr ≤ sp ∧ sp + save.validSz ≤ stk.ptr + stk.sz)
      pure { save with
        ptr := some { blk with bytes := A.copy blk.bytes blk.addr stk.bytes sp save.validSz }
        ctSave := (save.ctSave + 1) % A.size }
    else pure save
  return ({ owner with saveStack := save.noteCpsz }, { stk with owner := none, alignValidsz := 0 })

/-- The coroutine `c` takes its share stack, in `aco_resume`. -/
def restore (A : Arch) (c : ℕ) (stk : ShareStack) (co : Aco) : Except Fault (Aco × ShareStack) := do
  acoAssert (stk.owner = none)
  let save := co.saveStack
  acoAssert (save.validSz ≤ stk.alignLimit - A.word)
  let (save, bytes) ←
    if save.validSz > 0 then do
      let blk ← deref save.ptr
      inBounds (save.validSz ≤ blk.sz ∧ stk.ptr + save.validSz ≤ stk.alignRetptr ∧
        stk.alignRetptr ≤ stk.ptr + stk.sz)
      pure ({ save with ctRestore := (save.ctRestore + 1) % A.size },
        A.copy stk.bytes (stk.alignRetptr - save.validSz) blk.bytes blk.addr save.validSz)
    else pure (save, stk.bytes)
  return ({ co with saveStack := save.noteCpsz },
    { stk with bytes := bytes, alignValidsz := save.validSz + A.word, owner := some c })

/-- The coroutine `c` is made the owner of its share stack. -/
def takeStack (A : Arch) (malloc : Malloc) (m : Machine) (c k : ℕ) : Except Fault Machine := do
  let stk ← deref (m.stack k)
  let m ←
    match stk.owner with
    | some o => do
      let owner ← deref (m.co o)
      let (owner, stk) ← saveOwner A malloc k stk owner
      pure { m with
        co := Function.update m.co o (some owner), stack := Function.update m.stack k (some stk) }
    | none => pure m
  let co ← deref (m.co c)
  let stk ← deref (m.stack k)
  let (co, stk) ← restore A c stk co
  return { m with
    co := Function.update m.co c (some co), stack := Function.update m.stack k (some stk) }

/-- `acosw` from the main coroutine to `c`. -/
def switchTo (A : Arch) (m : Machine) (c : ℕ) : Except Fault Machine := do
  let co ← deref (m.co c)
  let sw := acosw A m.cpu m.mainReg co.reg
  return { m with
    cpu := sw.cpu, gtls := .co c, mainReg := sw.fromReg
    co := Function.update m.co c (some { co with reg := sw.toReg }) }

/-- `aco_resume`, up to where `c` runs. -/
def acoResume (A : Arch) (malloc : Malloc) (m : Machine) (c : ℕ) : Except Fault Machine := do
  let co ← deref (m.co c)
  acoAssert (co.isEnd = false)
  let stk ← deref (m.stack co.shareStack)
  let m ← if stk.owner ≠ some c then takeStack A malloc m c co.shareStack else pure m
  switchTo A m c

/-- `aco_yield`, and the end of the `aco_resume` that it returns to. -/
def acoYield (A : Arch) (m : Machine) : Except Fault Machine :=
  match m.gtls with
  | .null | .main => .error .assertion
  | .co c => do
    let co ← deref (m.co c)
    let sw := acosw A m.cpu co.reg m.mainReg
    return { m with
      cpu := sw.cpu, gtls := .main, mainReg := sw.toReg
      co := Function.update m.co c (some { co with reg := sw.fromReg }) }

/-- `aco_exit`. -/
def acoExit (A : Arch) (m : Machine) : Except Fault Machine :=
  match m.gtls with
  | .null | .main => .error .dangling
  | .co c => do
    let co ← deref (m.co c)
    let stk ← deref (m.stack co.shareStack)
    acoAssert (stk.owner = some c)
    acoYield A { m with
      co := Function.update m.co c (some { co with isEnd := true })
      stack := Function.update m.stack co.shareStack
        (some { stk with owner := none, alignValidsz := 0 }) }

/-- `aco_destroy` of a coroutine other than the main one. -/
def acoDestroy (m : Machine) (c : ℕ) : Except Fault Machine := do
  let co ← deref (m.co c)
  let stk ← deref (m.stack co.shareStack)
  let stk := if stk.owner = some c then { stk with owner := none, alignValidsz := 0 } else stk
  return { m with
    co := Function.update m.co c none
    stack := Function.update m.stack co.shareStack (some stk) }

/-- `aco_share_stack_destroy`. -/
def acoShareStackDestroy (m : Machine) (k : ℕ) : Except Fault Machine := do
  let _ ← deref (m.stack k)
  return { m with stack := Function.update m.stack k none }

/-- Whoever runs goes on: the registers become `reg`, and the memory of the share stack under a
coroutine becomes `bytes`. -/
def compute (m : Machine) (reg : Reg) (bytes : Bytes) : Except Fault Machine :=
  match m.gtls with
  | .null | .main => return { m with cpu := reg }
  | .co c => do
    let co ← deref (m.co c)
    let stk ← deref (m.stack co.shareStack)
    return { m with
      cpu := reg
      stack := Function.update m.stack co.shareStack (some { stk with bytes := bytes }) }

end UnixCodes.Libaco
