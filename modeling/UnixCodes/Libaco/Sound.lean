import UnixCodes.Libaco.Resume

/-! Every run of coroutines that keep to their stacks: no assertion of `aco.c` fails, and no copy
leaves its buffer. -/
namespace UnixCodes.Libaco

open Transition

inductive Op
  | threadInit
  | shareStackNew (k sz : ℕ) (guardPageEnabled : Bool) (pgsz : ℤ) (addr : ℕ) (junk : Bytes)
  | create (p k saveStackSz fp arg : ℕ) (malloc : Malloc)
  | resume (c : ℕ) (malloc : Malloc)
  | compute (reg : Reg) (bytes : Bytes)
  | yield
  | exit
  | destroy (c : ℕ)
  | shareStackDestroy (k : ℕ)

def perform (A : Arch) (protector : ℕ) (m : Machine) : Op → Except Fault Machine
  | .threadInit => .ok { m with fpu := m.cpu }
  | .shareStackNew k sz guardPageEnabled pgsz addr junk => do
    let stk ← acoShareStackNew2 A protector sz guardPageEnabled pgsz addr junk
    return { m with stack := Function.update m.stack k (some stk) }
  | .create p k saveStackSz fp arg malloc => acoCreate A m p k saveStackSz fp arg malloc
  | .resume c malloc => acoResume A malloc m c
  | .compute reg bytes => compute m reg bytes
  | .yield => acoYield A m
  | .exit => acoExit A m
  | .destroy c => acoDestroy m c
  | .shareStackDestroy k => acoShareStackDestroy m k

def Machine.MainRuns (m : Machine) : Prop := ∀ c, m.gtls ≠ .co c

/-- A coroutine changes its share stack below `align_retptr`, and leaves the stack pointer in the
valid part. -/
structure WithinStack (A : Arch) (stk : ShareStack) (reg : Reg) (bytes : Bytes) : Prop where
  low_le : stk.low ≤ reg A.sp
  le_ret : reg A.sp ≤ stk.alignRetptr
  frame : ∀ a, a < stk.low ∨ stk.alignRetptr ≤ a → bytes a = stk.bytes a

/-- What callers owe to `aco.c`, and what the kernel owes to it: new objects lie where no others
do, and none is larger than half of the address space. -/
def Allowed (A : Arch) (m : Machine) : Op → Prop
  | .threadInit => m.MainRuns
  | .shareStackNew k sz guardPageEnabled pgsz addr _ =>
    m.stack k = none ∧ sz < A.size ∧ pgsz < (A.size / 2 : ℕ) ∧
      addr + mappedSize sz guardPageEnabled pgsz ≤ A.size ∧
      2 * mappedSize sz guardPageEnabled pgsz ≤ A.size ∧
      (guardPageEnabled = true → Guardable A (requestedSize sz) pgsz)
  | .create p k _ _ _ _ => m.co p = none ∧ ∃ stk, m.stack k = some stk
  | .resume c _ => m.MainRuns ∧ ∃ co, m.co c = some co ∧ co.isEnd = false
  | .compute reg bytes => ∀ c co stk, m.gtls = .co c → m.co c = some co →
      m.stack co.shareStack = some stk → WithinStack A stk reg bytes
  | .yield => ∃ c, m.gtls = .co c
  | .exit => ∃ c, m.gtls = .co c
  | .destroy c => m.gtls ≠ .co c ∧ ∃ co, m.co c = some co
  | .shareStackDestroy k =>
    (∃ stk, m.stack k = some stk) ∧ ∀ c co, m.co c = some co → co.shareStack ≠ k

/-- One thread, from before its first share stack. -/
def coSystem (A : Arch) (protector : ℕ) : System Machine Op where
  Initial m := m.gtls = .null ∧ (∀ c, m.co c = none) ∧ ∀ k, m.stack k = none
  Step m op m' := Allowed A m op ∧ perform A protector m op = .ok m'

variable {A : Arch} {protector : ℕ} {m m' : Machine} {c d k : ℕ} {co co' : Aco}
  {stk stk' : ShareStack} {blk : Block} {op : Op} {malloc : Malloc}

/-- A coroutine on its share stack. The save stack counts while the share stack is somebody
else's. -/
structure Aco.Home (A : Arch) (m : Machine) (c : ℕ) (co : Aco) (stk : ShareStack) : Prop where
  ready : ∃ blk, co.saveStack.Ready blk
  sp : co.isEnd = false → m.gtls ≠ .co c →
    stk.low ≤ co.reg A.sp ∧ co.reg A.sp ≤ stk.alignRetptr
  saved : co.isEnd = false → stk.owner ≠ some c →
    co.saveStack.validSz = stk.alignRetptr - co.reg A.sp ∧ co.saveStack.validSz ≤ co.saveStack.sz

structure Machine.Inv (A : Arch) (protector : ℕ) (m : Machine) : Prop where
  laid : ∀ k stk, m.stack k = some stk → stk.Laid A protector ∧ 2 * stk.sz ≤ A.size
  homes : ∀ c co, m.co c = some co →
    ∃ stk, m.stack co.shareStack = some stk ∧ co.Home A m c stk
  owners : ∀ k stk o, m.stack k = some stk → stk.owner = some o →
    ∃ co, m.co o = some co ∧ co.shareStack = k ∧ co.isEnd = false
  running : ∀ c, m.gtls = .co c → ∃ co stk, m.co c = some co ∧ co.isEnd = false ∧
    m.stack co.shareStack = some stk ∧ stk.owner = some c ∧
    stk.low ≤ m.cpu A.sp ∧ m.cpu A.sp ≤ stk.alignRetptr

/-- Only the coroutine `c` changes, and its share stack `k`. -/
structure Machine.Edit (m m' : Machine) (c k : ℕ) (stk stk' : ShareStack) : Prop where
  co : ∀ d, d ≠ c → m'.co d = m.co d
  stack : ∀ j, j ≠ k → m'.stack j = m.stack j
  before : m.stack k = some stk
  after : m'.stack k = some stk'
  ret : stk'.alignRetptr = stk.alignRetptr
  low : stk'.low = stk.low
  owner : ∀ d, d ≠ c → (stk'.owner = some d ↔ stk.owner = some d)
  bytes : ∀ d, d ≠ c → stk.owner = some d → stk'.bytes = stk.bytes
  gtls : ∀ d, d ≠ c → (m'.gtls = .co d ↔ m.gtls = .co d)
  cpu : ∀ d, d ≠ c → m.gtls = .co d → m'.cpu = m.cpu

/-- What is left to show of an edit is what it does to `c` itself. -/
theorem Machine.Edit.inv (e : m.Edit m' c k stk stk') (h : m.Inv A protector)
    (hstk : stk'.Laid A protector ∧ 2 * stk'.sz ≤ A.size)
    (honly : ∀ j s, m.stack j = some s → s.owner = some c → j = k)
    (hself : ∀ co', m'.co c = some co' → co'.shareStack = k ∧ co'.Home A m' c stk')
    (howner : stk'.owner = some c → ∃ co', m'.co c = some co' ∧ co'.isEnd = false)
    (hrun : m'.gtls = .co c → ∃ co', m'.co c = some co' ∧ co'.isEnd = false ∧
      stk'.owner = some c ∧ stk'.low ≤ m'.cpu A.sp ∧ m'.cpu A.sp ≤ stk'.alignRetptr) :
    m'.Inv A protector := by
  constructor
  · intro j s hs
    by_cases hj : j = k
    · subst hj
      rw [e.after] at hs
      cases hs
      exact hstk
    · rw [e.stack j hj] at hs
      exact h.laid j s hs
  · intro d co hco
    by_cases hd : d = c
    · subst hd
      obtain ⟨hk, hhome⟩ := hself co hco
      exact ⟨stk', hk ▸ e.after, hhome⟩
    · rw [e.co d hd] at hco
      obtain ⟨s, hs, hready, hsp, hsaved⟩ := h.homes d co hco
      have hmoved := (e.gtls d hd).not
      by_cases hk : co.shareStack = k
      · rw [hk, e.before] at hs
        cases hs
        refine ⟨stk', hk ▸ e.after, hready, ?_, ?_⟩
        · intro hend hgtls
          rw [e.low, e.ret]
          exact hsp hend (hmoved.mp hgtls)
        · intro hend howns
          rw [e.ret]
          exact hsaved hend ((e.owner d hd).not.mp howns)
      · exact ⟨s, by rw [e.stack _ hk, hs], hready, fun hend hg => hsp hend (hmoved.mp hg), hsaved⟩
  · intro j s o hs ho
    by_cases hj : j = k
    · subst hj
      rw [e.after] at hs
      cases hs
      by_cases hoc : o = c
      · subst hoc
        obtain ⟨co', hco', hend⟩ := howner ho
        exact ⟨co', hco', (hself co' hco').1, hend⟩
      · rw [e.co o hoc]
        exact h.owners j stk o e.before ((e.owner o hoc).mp ho)
    · rw [e.stack j hj] at hs
      have hoc : o ≠ c := fun he => hj (honly j s hs (he ▸ ho))
      rw [e.co o hoc]
      exact h.owners j s o hs ho
  · intro d hd
    by_cases hdc : d = c
    · subst hdc
      obtain ⟨co', hco', hend, hown, hsp⟩ := hrun hd
      exact ⟨co', stk', hco', hend, (hself co' hco').1 ▸ e.after, hown, hsp⟩
    · have hgtls := (e.gtls d hdc).mp hd
      obtain ⟨co, s, hco, hend, hs, hown, hsp⟩ := h.running d hgtls
      rw [e.co d hdc, e.cpu d hdc hgtls]
      by_cases hk : co.shareStack = k
      · rw [hk, e.before] at hs
        cases hs
        refine ⟨co, stk', hco, hend, hk ▸ e.after, (e.owner d hdc).mpr hown, ?_⟩
        rw [e.low, e.ret]
        exact hsp
      · exact ⟨co, s, hco, hend, by rw [e.stack _ hk, hs], hown, hsp⟩

/-- New contents for a coroutine and a share stack. -/
def Machine.put (m : Machine) (c : ℕ) (co : Aco) (k : ℕ) (stk : ShareStack) : Machine :=
  { m with
    co := Function.update m.co c (some co), stack := Function.update m.stack k (some stk) }

theorem put_edit (hstk : m.stack k = some stk) (hret : stk'.alignRetptr = stk.alignRetptr)
    (hlow : stk'.low = stk.low) (howner : ∀ d, d ≠ c → (stk'.owner = some d ↔ stk.owner = some d))
    (hbytes : ∀ d, d ≠ c → stk.owner = some d → stk'.bytes = stk.bytes) :
    m.Edit (m.put c co k stk') c k stk stk' where
  co _ hd := Function.update_of_ne hd ..
  stack _ hj := Function.update_of_ne hj ..
  before := hstk
  after := Function.update_self ..
  ret := hret
  low := hlow
  owner := howner
  bytes := hbytes
  gtls _ _ := Iff.rfl
  cpu _ _ _ := rfl

@[simp] theorem put_co_self : (m.put c co k stk).co c = some co := Function.update_self ..

@[simp] theorem put_stack_self : (m.put c co k stk).stack k = some stk := Function.update_self ..

/-- A share stack that its owner has left. -/
def ShareStack.release (stk : ShareStack) : ShareStack :=
  { stk with owner := none, alignValidsz := 0 }

/-- A share stack that `c` has come to, with its bytes. -/
def ShareStack.take (A : Arch) (stk : ShareStack) (c : ℕ) (co : Aco) (blk : Block) : ShareStack :=
  { stk with
    bytes := memcpy stk.bytes (co.reg A.sp) blk.bytes blk.addr co.saveStack.validSz
    alignValidsz := co.saveStack.validSz + A.word
    owner := some c }

/-- The owner `o` of the share stack `k` has been saved. -/
inductive Evicted (A : Arch) (m : Machine) (o k : ℕ) : Machine → Prop
  | intro {owner : Aco} {stk : ShareStack} {save : SaveStack} {blk : Block} :
      m.co o = some owner → owner.shareStack = k →
      m.stack k = some stk → stk.owner = some o → save.Saved stk (owner.reg A.sp) blk →
      save.ctSave = countCopy A owner.saveStack.ctSave save.validSz →
      save.ctRestore = owner.saveStack.ctRestore →
      save.maxCpsz = max owner.saveStack.maxCpsz save.validSz →
      Evicted A m o k
        (m.put o { owner with saveStack := save } k stk.release)

/-- The coroutine `c` has its bytes on the share stack `k` again. -/
inductive Restored (A : Arch) (m : Machine) (c k : ℕ) : Machine → Prop
  | intro {co : Aco} {stk : ShareStack} {blk : Block} :
      m.co c = some co → co.shareStack = k → m.stack k = some stk →
      stk.owner = none → co.saveStack.Ready blk → co.isEnd = false →
      stk.low ≤ co.reg A.sp → co.reg A.sp ≤ stk.alignRetptr →
      co.saveStack.validSz = stk.alignRetptr - co.reg A.sp →
      Restored A m c k
        (m.put c { co with saveStack := co.saveStack.restored A } k (stk.take A c co blk))

/-- The ways in which `c` comes to own its share stack. -/
inductive Taken (A : Arch) (m : Machine) (c k : ℕ) : Machine → Prop
  | own {stk : ShareStack} : m.stack k = some stk → stk.owner = some c → Taken A m c k m
  | free {m' : Machine} : Restored A m c k m' → Taken A m c k m'
  | evict {o : ℕ} {m₁ m' : Machine} :
      o ≠ c → Evicted A m o k m₁ → Restored A m₁ c k m' → Taken A m c k m'

theorem ShareStack.Laid.withOwner {o : Option ℕ} {n : ℕ} (h : stk.Laid A protector) :
    ShareStack.Laid A protector { stk with owner := o, alignValidsz := n } :=
  ⟨h.room, h.large, h.aligned, h.high_le, h.lt_high, h.ret, h.limit, h.guarded⟩

/-- The word that holds the protector lies above the valid part. -/
theorem ShareStack.Laid.withBytes {o : Option ℕ} {n : ℕ} {bytes : Bytes} (h : stk.Laid A protector)
    (hbytes : ∀ a, stk.alignRetptr ≤ a → bytes a = stk.bytes a) :
    ShareStack.Laid A protector { stk with bytes := bytes, owner := o, alignValidsz := n } := by
  refine ⟨h.room, h.large, h.aligned, h.high_le, h.lt_high, h.ret, h.limit, ?_⟩
  rw [← h.guarded]
  funext j
  exact hbytes _ (Nat.le_add_right ..)

theorem evicted_edit {o : ℕ} (co : Aco) (hstk : m.stack k = some stk) (hown : stk.owner = some o) :
    m.Edit (m.put o co k stk.release) o k stk stk.release := by
  refine put_edit hstk rfl rfl (fun d hd => ?_) fun _ _ _ => rfl
  simp [ShareStack.release, hown, hd.symm]

theorem restored_edit (co co' : Aco) (hstk : m.stack k = some stk) (hnone : stk.owner = none) :
    m.Edit (m.put c co' k (stk.take A c co blk)) c k stk (stk.take A c co blk) := by
  refine put_edit hstk rfl rfl (fun d hd => ?_) fun d _ ho => ?_
  · simp [ShareStack.take, hnone, hd.symm]
  · rw [hnone] at ho
    cases ho

theorem Evicted.inv {o : ℕ} (e : Evicted A m o k m') (h : m.Inv A protector) (hmain : m.MainRuns) :
    m'.Inv A protector ∧ m'.MainRuns := by
  obtain @⟨owner, stk, save, blk, hco, hhome, hstk, hown, hsaved, -, -, -⟩ := e
  have hlaid := h.laid k stk hstk
  obtain ⟨s, hs, hself⟩ := h.homes o owner hco
  rw [hhome, hstk] at hs
  cases hs
  refine ⟨(evicted_edit _ hstk hown).inv h ⟨hlaid.1.withOwner, hlaid.2⟩ ?_ ?_ nofun ?_, hmain⟩
  · intro j s hs ho
    obtain ⟨co, hco', hk, -⟩ := h.owners j s o hs ho
    rw [hco] at hco'
    cases hco'
    exact hk.symm.trans hhome
  · rintro co' hco'
    rw [put_co_self] at hco'
    cases hco'
    exact ⟨hhome, ⟨blk, hsaved.ready⟩, hself.sp, fun _ _ => ⟨hsaved.validSz, hsaved.enough⟩⟩
  · exact fun hg => absurd hg (hmain o)

theorem Restored.inv (e : Restored A m c k m') (h : m.Inv A protector) (hmain : m.MainRuns) :
    m'.Inv A protector ∧ m'.MainRuns := by
  obtain @⟨co, stk, blk, hco, hhome, hstk, hnone, hready, hend, hlow, hret, hvalid⟩ := e
  have hlaid := h.laid k stk hstk
  refine ⟨(restored_edit co _ hstk hnone).inv h ⟨hlaid.1.withBytes ?_, hlaid.2⟩ ?_ ?_ ?_ ?_, hmain⟩
  · intro a ha
    exact if_neg (by omega)
  · intro j s hs ho
    obtain ⟨co', hco', hk, -⟩ := h.owners j s c hs ho
    rw [hco] at hco'
    cases hco'
    exact hk.symm.trans hhome
  · rintro co' hco'
    rw [put_co_self] at hco'
    cases hco'
    refine ⟨hhome, ⟨blk, hready.ptr, hready.sz, hready.pos⟩, fun _ _ => ⟨hlow, hret⟩, ?_⟩
    exact fun _ hne => absurd rfl hne
  · exact fun _ => ⟨_, put_co_self, hend⟩
  · exact fun hg => absurd hg (hmain c)

theorem Taken.inv (e : Taken A m c k m') (h : m.Inv A protector) (hmain : m.MainRuns) :
    m'.Inv A protector ∧ m'.MainRuns := by
  cases e with
  | own => exact ⟨h, hmain⟩
  | free hr => exact hr.inv h hmain
  | evict _ he hr =>
    obtain ⟨h₁, hmain₁⟩ := he.inv h hmain
    exact hr.inv h₁ hmain₁

/-- The coroutine is what it was, up to its save stack. -/
theorem Restored.coAt (e : Restored A m c k m') (hco : m.co c = some co) :
    ∃ save, m'.co c = some { co with saveStack := save } := by
  obtain @⟨co', stk, blk, hco', -, -, -, -, -, -, -, -⟩ := e
  rw [hco] at hco'
  cases hco'
  exact ⟨_, put_co_self⟩

theorem Evicted.coAt {o : ℕ} (e : Evicted A m o k m') (hco : m.co c = some co) (ho : o ≠ c) :
    m'.co c = some co := by
  obtain ⟨-, -, -, -, -, -, -, -⟩ := e
  exact (Function.update_of_ne ho.symm ..).trans hco

theorem Evicted.owner {o : ℕ} (e : Evicted A m o k m') (hstk : m'.stack k = some stk) :
    stk.owner = none := by
  obtain ⟨-, -, -, -, -, -, -, -⟩ := e
  rw [put_stack_self] at hstk
  cases hstk
  rfl

theorem Taken.coAt (e : Taken A m c k m') (hco : m.co c = some co) :
    ∃ save, m'.co c = some { co with saveStack := save } := by
  cases e with
  | own => exact ⟨co.saveStack, hco⟩
  | free hr => exact hr.coAt hco
  | evict ho he hr => exact hr.coAt (he.coAt hco ho)

theorem Taken.owner (e : Taken A m c k m') :
    ∃ stk, m'.stack k = some stk ∧ stk.owner = some c := by
  cases e with
  | own hstk hown => exact ⟨_, hstk, hown⟩
  | free hr =>
    obtain ⟨-, -, -, -, -, -, -, -, -⟩ := hr
    exact ⟨_, put_stack_self, rfl⟩
  | evict ho he hr =>
    obtain ⟨-, -, -, -, -, -, -, -, -⟩ := hr
    exact ⟨_, put_stack_self, rfl⟩

theorem evict_ok (malloc : Malloc) {o : ℕ} (h : m.Inv A protector) (hmain : m.MainRuns)
    (hstk : m.stack k = some stk)
    (hown : stk.owner = some o) :
    ∃ owner owner' stk', m.co o = some owner ∧
      saveOwner A malloc k stk owner = .ok (owner', stk') ∧
      Evicted A m o k (m.put o owner' k stk') := by
  obtain ⟨hlaid, hmax⟩ := h.laid k stk hstk
  obtain ⟨owner, hco, hhome, hend⟩ := h.owners k stk o hstk hown
  obtain ⟨s, hs, ⟨blk, hready⟩, hsp, -⟩ := h.homes o owner hco
  rw [hhome, hstk] at hs
  cases hs
  obtain ⟨hlow, hret⟩ := hsp hend (hmain o)
  obtain ⟨save, blk', hok, hsaved, hct, hrestore, hcpsz⟩ :=
    saveOwner_ok malloc hlaid hmax hhome hlow hret hready
  exact ⟨owner, _, _, hco, hok, .intro hco hhome hstk hown hsaved hct hrestore hcpsz⟩

theorem restored_ok (h : m.Inv A protector) (hmain : m.MainRuns) (hco : m.co c = some co)
    (hend : co.isEnd = false) (hhome : co.shareStack = k) (hstk : m.stack k = some stk)
    (hnone : stk.owner = none) :
    ∃ co' stk', restore A c stk co = .ok (co', stk') ∧ Restored A m c k (m.put c co' k stk') := by
  obtain ⟨hlaid, hmax⟩ := h.laid k stk hstk
  obtain ⟨s, hs, ⟨blk, hready⟩, hsp, hsaved⟩ := h.homes c co hco
  rw [hhome, hstk] at hs
  cases hs
  obtain ⟨hlow, hret⟩ := hsp hend (hmain c)
  obtain ⟨hvalid, henough⟩ := hsaved hend (by simp [hnone])
  exact ⟨_, _, restore_ok hlaid hnone hlow hret hready hvalid henough,
    .intro hco hhome hstk hnone hready hend hlow hret hvalid⟩

theorem takeStack_ok (malloc : Malloc) (h : m.Inv A protector) (hmain : m.MainRuns)
    (hco : m.co c = some co)
    (hend : co.isEnd = false) (hhome : co.shareStack = k) (hstk : m.stack k = some stk)
    (hne : stk.owner ≠ some c) :
    ∃ m', takeStack A malloc m c k = .ok m' ∧ Taken A m c k m' := by
  unfold takeStack
  rw [hstk, deref_some, ok_bind]
  cases hown : stk.owner with
  | none =>
    obtain ⟨co', stk', hok, hr⟩ := restored_ok h hmain hco hend hhome hstk hown
    refine ⟨_, ?_, .free hr⟩
    change (deref (m.co c) >>= fun _ => _) = _
    rw [hco, deref_some, ok_bind, hstk, deref_some, ok_bind, hok, ok_bind]
    rfl
  | some o =>
    have hoc : o ≠ c := fun he => hne (he ▸ hown)
    obtain ⟨owner, owner', stk', hco', hok, he⟩ := evict_ok malloc h hmain hstk hown
    obtain ⟨h₁, hmain₁⟩ := he.inv h hmain
    obtain ⟨co'', stk'', hok', hr⟩ := restored_ok h₁ hmain₁ (he.coAt hco hoc) hend hhome
      put_stack_self (he.owner put_stack_self)
    refine ⟨_, ?_, .evict hoc he hr⟩
    simp only
    rw [hco', deref_some, ok_bind, hok, ok_bind]
    change (deref ((m.put o owner' k stk').co c) >>= fun _ => _) = _
    rw [he.coAt hco hoc, deref_some, ok_bind]
    change (deref ((m.put o owner' k stk').stack k) >>= fun _ => _) = _
    rw [put_stack_self, deref_some, ok_bind, hok', ok_bind]
    rfl

/-- The main coroutine has switched to `c`. -/
def Machine.switched (A : Arch) (m : Machine) (c : ℕ) (co : Aco) : Machine :=
  { m with
    cpu := (acosw A m.cpu m.mainReg co.reg).cpu
    gtls := .co c
    mainReg := (acosw A m.cpu m.mainReg co.reg).fromReg
    co := Function.update m.co c (some { co with reg := (acosw A m.cpu m.mainReg co.reg).toReg }) }

/-- The coroutine `c` has switched to the main one. -/
def Machine.left (A : Arch) (m : Machine) (c : ℕ) (co : Aco) : Machine :=
  { m with
    cpu := (acosw A m.cpu co.reg m.mainReg).cpu
    gtls := .main
    mainReg := (acosw A m.cpu co.reg m.mainReg).toReg
    co := Function.update m.co c
      (some { co with reg := (acosw A m.cpu co.reg m.mainReg).fromReg }) }

theorem acoResume_ok (malloc : Malloc) (h : m.Inv A protector) (hmain : m.MainRuns)
    (hco : m.co c = some co)
    (hend : co.isEnd = false) :
    ∃ m₁ save, Taken A m c co.shareStack m₁ ∧ m₁.co c = some { co with saveStack := save } ∧
      acoResume A malloc m c = .ok (m₁.switched A c { co with saveStack := save }) := by
  obtain ⟨stk, hstk, -⟩ := h.homes c co hco
  have htaken : ∃ m₁, Taken A m c co.shareStack m₁ ∧
      acoResume A malloc m c = switchTo A m₁ c := by
    unfold acoResume
    rw [hco, deref_some, ok_bind, acoAssert_pos hend, ok_bind, hstk, deref_some, ok_bind]
    by_cases hown : stk.owner = some c
    · exact ⟨m, .own hstk hown, if_neg (not_not.mpr hown)⟩
    · obtain ⟨m₁, hok, ht⟩ := takeStack_ok malloc h hmain hco hend rfl hstk hown
      refine ⟨m₁, ht, (if_pos hown).trans ?_⟩
      rw [hok, ok_bind]
  obtain ⟨m₁, ht, hok⟩ := htaken
  obtain ⟨save, hco₁⟩ := ht.coAt hco
  refine ⟨m₁, save, ht, hco₁, ?_⟩
  rw [hok]
  unfold switchTo
  rw [hco₁]
  rfl

theorem switched_edit (hstk : m.stack k = some stk) (hmain : m.MainRuns) :
    m.Edit (m.switched A c co) c k stk stk where
  co _ hd := Function.update_of_ne hd ..
  stack _ _ := rfl
  before := hstk
  after := hstk
  ret := rfl
  low := rfl
  owner _ _ := Iff.rfl
  bytes _ _ _ := rfl
  gtls d hd := by
    refine ⟨fun hg => ?_, fun hg => absurd hg (hmain d)⟩
    cases hg
    exact absurd rfl hd
  cpu d _ hg := absurd hg (hmain d)

theorem left_edit (hgtls : m.gtls = .co c) (hstk : m.stack k = some stk) :
    m.Edit (m.left A c co) c k stk stk where
  co _ hd := Function.update_of_ne hd ..
  stack _ _ := rfl
  before := hstk
  after := hstk
  ret := rfl
  low := rfl
  owner _ _ := Iff.rfl
  bytes _ _ _ := rfl
  gtls d hd := by
    refine ⟨nofun, fun hg => ?_⟩
    rw [hgtls] at hg
    cases hg
    exact absurd rfl hd
  cpu d hd hg := by
    rw [hgtls] at hg
    cases hg
    exact absurd rfl hd

/-- A coroutine owns no share stack but its own. -/
theorem Machine.Inv.only (h : m.Inv A protector) (hco : m.co c = some co) {j : ℕ}
    (hstk : m.stack j = some stk) (hown : stk.owner = some c) : j = co.shareStack := by
  obtain ⟨co', hco', hk, -⟩ := h.owners j stk c hstk hown
  rw [hco] at hco'
  cases hco'
  exact hk.symm

theorem switched_inv (h : m.Inv A protector) (hmain : m.MainRuns) (hco : m.co c = some co)
    (hend : co.isEnd = false) (hstk : m.stack co.shareStack = some stk)
    (hown : stk.owner = some c) : (m.switched A c co).Inv A protector := by
  obtain ⟨s, hs, hready, hsp, -⟩ := h.homes c co hco
  rw [hstk] at hs
  cases hs
  have hcpu : (m.switched A c co).cpu A.sp = co.reg A.sp := acosw_cpu (sp_private A)
  refine (switched_edit hstk hmain).inv h (h.laid _ _ hstk) ?_ ?_ ?_ ?_
  · exact fun j s hs ho => h.only hco hs ho
  · intro co' hco'
    have hself : (m.switched A c co).co c = some _ := Function.update_self ..
    rw [hself] at hco'
    cases hco'
    exact ⟨rfl, hready, fun _ hne => absurd rfl hne, fun _ hne => absurd hown hne⟩
  · exact fun _ => ⟨_, Function.update_self .., hend⟩
  · intro _
    refine ⟨_, Function.update_self .., hend, hown, ?_⟩
    rw [hcpu]
    exact hsp hend (hmain c)

theorem left_inv (h : m.Inv A protector) (hgtls : m.gtls = .co c) (hco : m.co c = some co) :
    (m.left A c co).Inv A protector := by
  obtain ⟨co', stk, hco', hend, hstk, hown, hlow, hret⟩ := h.running c hgtls
  rw [hco] at hco'
  cases hco'
  obtain ⟨s, hs, hready, -, -⟩ := h.homes c co hco
  refine (left_edit hgtls hstk).inv h (h.laid _ _ hstk) ?_ ?_ ?_ nofun
  · exact fun j s hs ho => h.only hco hs ho
  · intro co' hco'
    have hself : (m.left A c co).co c = some _ := Function.update_self ..
    rw [hself] at hco'
    cases hco'
    refine ⟨rfl, hready, fun _ _ => ?_, fun _ hne => absurd hown hne⟩
    have hreg : (acosw A m.cpu co.reg m.mainReg).fromReg A.sp = m.cpu A.sp :=
      acosw_fromReg (sp_private A)
    simp only [hreg]
    exact ⟨hlow, hret⟩
  · exact fun _ => ⟨_, Function.update_self .., hend⟩

theorem exit_edit (hgtls : m.gtls = .co c) (hstk : m.stack k = some stk) (hown : stk.owner = some c)
    (co co' : Aco) : m.Edit ((m.put c co k stk.release).left A c co') c k stk stk.release where
  co _ hd := (Function.update_of_ne hd ..).trans (Function.update_of_ne hd ..)
  stack _ hj := Function.update_of_ne hj ..
  before := hstk
  after := Function.update_self ..
  ret := rfl
  low := rfl
  owner d hd := by simp [hown, hd.symm, ShareStack.release]
  bytes _ _ _ := rfl
  gtls d hd := by
    refine ⟨nofun, fun hg => ?_⟩
    rw [hgtls] at hg
    cases hg
    exact absurd rfl hd
  cpu d hd hg := by
    rw [hgtls] at hg
    cases hg
    exact absurd rfl hd

theorem exit_inv (h : m.Inv A protector) (hgtls : m.gtls = .co c) (hco : m.co c = some co)
    (hstk : m.stack co.shareStack = some stk) (hown : stk.owner = some c) :
    ((m.put c { co with isEnd := true } co.shareStack stk.release).left A c
      { co with isEnd := true }).Inv A protector := by
  obtain ⟨s, hs, hready, -, -⟩ := h.homes c co hco
  obtain ⟨hlaid, hmax⟩ := h.laid _ _ hstk
  refine (exit_edit hgtls hstk hown _ _).inv h ⟨hlaid.withOwner, hmax⟩ ?_ ?_ nofun nofun
  · exact fun j s hs ho => h.only hco hs ho
  · intro co' hco'
    have hself (m : Machine) (co : Aco) : (m.left A c co).co c = some _ := Function.update_self ..
    rw [hself] at hco'
    cases hco'
    exact ⟨rfl, hready, nofun, nofun⟩

/-- What `aco_create` makes. -/
def newAco (A : Arch) (m : Machine) (stk : ShareStack) (k saveStackSz fp arg : ℕ)
    (malloc : Malloc) :
    Aco where
  reg := initialReg A fp stk.alignRetptr m.fpu
  arg := arg
  isEnd := false
  fp := fp
  saveStack := ⟨some (malloc.block (if saveStackSz = 0 then 64 else saveStackSz)),
    if saveStackSz = 0 then 64 else saveStackSz, 0, 0, 0, 0⟩
  shareStack := k

theorem initialReg_sp (A : Arch) (fp ret : ℕ) (fpu : Reg) : initialReg A fp ret fpu A.sp = ret := by
  have hne : A.sp ≠ A.retaddr := by
    cases A <;> decide
  rw [initialReg, if_neg hne, if_pos rfl]

def Machine.created (m : Machine) (c : ℕ) (co : Aco) : Machine :=
  { m with co := Function.update m.co c (some co) }

theorem acoCreate_ok {p saveStackSz fp arg : ℕ} (hstk : m.stack k = some stk) :
    acoCreate A m p k saveStackSz fp arg malloc =
      .ok (m.created p (newAco A m stk k saveStackSz fp arg malloc)) := by
  unfold acoCreate
  rw [hstk]
  rfl

theorem Machine.Inv.fresh (h : m.Inv A protector) {p : ℕ} (hp : m.co p = none)
    (hstk : m.stack k = some stk) : stk.owner ≠ some p := by
  intro hown
  obtain ⟨co, hco, -⟩ := h.owners k stk p hstk hown
  rw [hp] at hco
  cases hco

theorem Machine.Inv.running_ne (h : m.Inv A protector) {p : ℕ} (hp : m.co p = none) :
    m.gtls ≠ .co p := by
  intro hg
  obtain ⟨co, -, hco, -⟩ := h.running p hg
  rw [hp] at hco
  cases hco

theorem create_edit (co : Aco) (hstk : m.stack k = some stk) :
    m.Edit (m.created c co) c k stk stk where
  co _ hd := Function.update_of_ne hd ..
  stack _ _ := rfl
  before := hstk
  after := hstk
  ret := rfl
  low := rfl
  owner _ _ := Iff.rfl
  bytes _ _ _ := rfl
  gtls _ _ := Iff.rfl
  cpu _ _ _ := rfl

theorem create_inv {saveStackSz fp arg : ℕ} (h : m.Inv A protector) (hc : m.co c = none)
    (hstk : m.stack k = some stk) :
    (m.created c (newAco A m stk k saveStackSz fp arg malloc)).Inv A protector := by
  have hlaid := h.laid k stk hstk
  refine (create_edit _ hstk).inv h hlaid ?_ ?_ ?_ ?_
  · exact fun j s hs ho => absurd ho (h.fresh hc hs)
  · intro co' hco'
    have hself (co : Aco) : (m.created c co).co c = some co := Function.update_self ..
    rw [hself] at hco'
    cases hco'
    have hsp : (newAco A m stk k saveStackSz fp arg malloc).reg A.sp = stk.alignRetptr :=
      initialReg_sp ..
    refine ⟨rfl, ⟨_, rfl, rfl, ?_⟩, fun _ _ => ?_, fun _ _ => ⟨?_, Nat.zero_le _⟩⟩
    · simp only [newAco]
      split <;> omega
    · rw [hsp]
      exact ⟨hlaid.1.inside.low_le, le_rfl⟩
    · rw [hsp]
      exact (Nat.sub_self _).symm
  · exact fun ho => absurd ho (h.fresh hc hstk)
  · exact fun hg => absurd hg (h.running_ne hc)

/-- A coroutine has run on its share stack. -/
def Machine.computed (m : Machine) (reg : Reg) (k : ℕ) (stk : ShareStack) (bytes : Bytes) :
    Machine :=
  { m with cpu := reg, stack := Function.update m.stack k (some { stk with bytes := bytes }) }

theorem computed_edit {reg : Reg} {bytes : Bytes} (hgtls : m.gtls = .co c)
    (hstk : m.stack k = some stk) (hown : stk.owner = some c) :
    m.Edit (m.computed reg k stk bytes) c k stk { stk with bytes := bytes } where
  co _ _ := rfl
  stack _ hj := Function.update_of_ne hj ..
  before := hstk
  after := Function.update_self ..
  ret := rfl
  low := rfl
  owner _ _ := Iff.rfl
  bytes d hd ho := by
    rw [hown] at ho
    cases ho
    exact absurd rfl hd
  gtls _ _ := Iff.rfl
  cpu d hd hg := by
    rw [hgtls] at hg
    cases hg
    exact absurd rfl hd

theorem computed_inv {reg : Reg} {bytes : Bytes} (h : m.Inv A protector) (hgtls : m.gtls = .co c)
    (hco : m.co c = some co) (hend : co.isEnd = false) (hstk : m.stack co.shareStack = some stk)
    (hown : stk.owner = some c) (hw : WithinStack A stk reg bytes) :
    (m.computed reg co.shareStack stk bytes).Inv A protector := by
  obtain ⟨s, hs, hhome⟩ := h.homes c co hco
  rw [hstk] at hs
  cases hs
  obtain ⟨hlaid, hmax⟩ := h.laid _ _ hstk
  refine (computed_edit hgtls hstk hown).inv h
    ⟨hlaid.withBytes fun a ha => hw.frame a (.inr ha), hmax⟩
    ?_ ?_ ?_ ?_
  · exact fun j s hs ho => h.only hco hs ho
  · intro co' hco'
    have heq : m.co c = some co' := hco'
    rw [hco] at heq
    cases heq
    exact ⟨rfl, hhome.ready, fun _ hne => absurd hgtls hne, fun _ hne => absurd hown hne⟩
  · exact fun _ => ⟨co, hco, hend⟩
  · exact fun _ => ⟨co, hco, hend, hown, hw.low_le, hw.le_ret⟩

/-- The share stack of `c` when `c` is destroyed. -/
def ShareStack.leave (stk : ShareStack) (c : ℕ) : ShareStack :=
  if stk.owner = some c then stk.release else stk

theorem leave_owner (hd : d ≠ c) : (stk.leave c).owner = some d ↔ stk.owner = some d := by
  unfold ShareStack.leave
  split
  · rename_i hown
    simp [hown, ShareStack.release, hd.symm]
  · rfl

theorem leave_owner_self : (stk.leave c).owner ≠ some c := by
  unfold ShareStack.leave
  split
  · exact nofun
  · assumption

theorem leave_eq (stk : ShareStack) (c : ℕ) :
    ∃ owner n, stk.leave c = { stk with owner := owner, alignValidsz := n } := by
  unfold ShareStack.leave
  split
  · exact ⟨_, _, rfl⟩
  · exact ⟨_, _, rfl⟩

/-- The coroutine `c` is gone. -/
def Machine.destroyed (m : Machine) (c k : ℕ) (stk : ShareStack) : Machine :=
  { m with
    co := Function.update m.co c none
    stack := Function.update m.stack k (some (stk.leave c)) }

theorem acoDestroy_ok (hco : m.co c = some co) (hstk : m.stack co.shareStack = some stk) :
    acoDestroy m c = .ok (m.destroyed c co.shareStack stk) := by
  unfold acoDestroy
  rw [hco, deref_some, ok_bind, hstk]
  rfl

theorem destroyed_edit (hstk : m.stack k = some stk) :
    m.Edit (m.destroyed c k stk) c k stk (stk.leave c) where
  co _ hd := Function.update_of_ne hd ..
  stack _ hj := Function.update_of_ne hj ..
  before := hstk
  after := Function.update_self ..
  ret := by
    obtain ⟨_, _, heq⟩ := leave_eq stk c
    rw [heq]
  low := by
    obtain ⟨_, _, heq⟩ := leave_eq stk c
    rw [heq]
    rfl
  owner _ hd := leave_owner hd
  bytes _ _ _ := by
    obtain ⟨_, _, heq⟩ := leave_eq stk c
    rw [heq]
  gtls _ _ := Iff.rfl
  cpu _ _ _ := rfl

theorem destroyed_inv (h : m.Inv A protector) (hgtls : m.gtls ≠ .co c) (hco : m.co c = some co)
    (hstk : m.stack co.shareStack = some stk) :
    (m.destroyed c co.shareStack stk).Inv A protector := by
  obtain ⟨hlaid, hmax⟩ := h.laid _ _ hstk
  obtain ⟨_, _, heq⟩ := leave_eq stk c
  refine (destroyed_edit hstk).inv h ⟨heq ▸ hlaid.withOwner, heq ▸ hmax⟩ ?_ ?_ ?_ ?_
  · exact fun j s hs ho => h.only hco hs ho
  · intro co' hco'
    have hgone : (m.destroyed c co.shareStack stk).co c = none := Function.update_self ..
    rw [hgone] at hco'
    cases hco'
  · exact fun ho => absurd ho leave_owner_self
  · exact fun hg => absurd hg hgtls

/-- A share stack at an address where there was none. -/
theorem stackNew_inv (h : m.Inv A protector) (hk : m.stack k = none)
    (hlaid : stk.Laid A protector) (hmax : 2 * stk.sz ≤ A.size) (hnone : stk.owner = none) :
    Machine.Inv A protector { m with stack := Function.update m.stack k (some stk) } := by
  have hother {j : ℕ} {s : ShareStack} (hs : m.stack j = some s) :
      Function.update m.stack k (some stk) j = some s := by
    have hj : j ≠ k := by
      rintro rfl
      rw [hk] at hs
      cases hs
    exact (Function.update_of_ne hj ..).trans hs
  constructor
  · intro j s hs
    by_cases hj : j = k
    · subst hj
      simp only [Function.update_self] at hs
      cases hs
      exact ⟨hlaid, hmax⟩
    · simp only [Function.update_of_ne hj] at hs
      exact h.laid j s hs
  · intro c co hco
    obtain ⟨s, hs, hready, hsp, hsaved⟩ := h.homes c co hco
    exact ⟨s, hother hs, hready, hsp, hsaved⟩
  · intro j s o hs ho
    by_cases hj : j = k
    · subst hj
      simp only [Function.update_self] at hs
      cases hs
      rw [hnone] at ho
      cases ho
    · simp only [Function.update_of_ne hj] at hs
      exact h.owners j s o hs ho
  · intro c hg
    obtain ⟨co, s, hco, hend, hs, hrest⟩ := h.running c hg
    exact ⟨co, s, hco, hend, hother hs, hrest⟩

theorem stackDestroy_inv (h : m.Inv A protector)
    (hnone : ∀ c co, m.co c = some co → co.shareStack ≠ k) :
    Machine.Inv A protector { m with stack := Function.update m.stack k none } := by
  have hkept {c : ℕ} {co : Aco} (hco : m.co c = some co) :
      Function.update m.stack k none co.shareStack = m.stack co.shareStack :=
    Function.update_of_ne (hnone c co hco) ..
  have hold {j : ℕ} {s : ShareStack} (hs : Function.update m.stack k none j = some s) :
      m.stack j = some s := by
    by_cases hj : j = k
    · subst hj
      simp only [Function.update_self] at hs
      cases hs
    · rwa [Function.update_of_ne hj] at hs
  constructor
  · exact fun j s hs => h.laid j s (hold hs)
  · intro c co hco
    obtain ⟨s, hs, hready, hsp, hsaved⟩ := h.homes c co hco
    exact ⟨s, (hkept hco).trans hs, hready, hsp, hsaved⟩
  · exact fun j s o hs ho => h.owners j s o (hold hs) ho
  · intro c hg
    obtain ⟨co, s, hco, hend, hs, hrest⟩ := h.running c hg
    exact ⟨co, s, hco, hend, (hkept hco).trans hs, hrest⟩

theorem ShareStack.Made.le_mapped {sz addr : ℕ} {guardPageEnabled : Bool} {pgsz : ℤ}
    (h : stk.Made A protector sz guardPageEnabled pgsz addr) :
    stk.sz ≤ mappedSize sz guardPageEnabled pgsz := by
  cases guardPageEnabled with
  | false => exact (h.plain rfl).2.le
  | true =>
    obtain ⟨-, hreal, hptr, hend⟩ := h.guard rfl
    omega

theorem shareStackNew_ok (protector : ℕ) {sz addr : ℕ} {guardPageEnabled : Bool} {pgsz : ℤ}
    {junk : Bytes}
    (hallowed : Allowed A m (.shareStackNew k sz guardPageEnabled pgsz addr junk)) :
    ∃ stk, acoShareStackNew2 A protector sz guardPageEnabled pgsz addr junk = .ok stk ∧
      stk.Made A protector sz guardPageEnabled pgsz addr := by
  obtain ⟨-, hsz, hlong, haddr, -, hguard⟩ := hallowed
  have hspec := acoShareStackNew2_spec A protector sz guardPageEnabled pgsz addr junk hsz hlong
  rw [if_neg fun hn => hn.2 (hguard hn.1)] at hspec
  exact hspec haddr

theorem acoYield_ok (hgtls : m.gtls = .co c) (hco : m.co c = some co) :
    acoYield A m = .ok (m.left A c co) := by
  simp only [acoYield, hgtls, hco]
  rfl

theorem acoExit_ok (hgtls : m.gtls = .co c) (hco : m.co c = some co)
    (hstk : m.stack co.shareStack = some stk) (hown : stk.owner = some c) :
    acoExit A m = .ok ((m.put c { co with isEnd := true } co.shareStack stk.release).left A c
      { co with isEnd := true }) := by
  have hyield := acoYield_ok (A := A)
    (m := m.put c { co with isEnd := true } co.shareStack stk.release) hgtls put_co_self
  simp only [acoExit, hgtls, hco, deref_some, ok_bind, hstk, acoAssert_pos hown]
  rw [← hgtls]
  exact hyield

theorem compute_ok {reg : Reg} {bytes : Bytes} (hgtls : m.gtls = .co c) (hco : m.co c = some co)
    (hstk : m.stack co.shareStack = some stk) :
    compute m reg bytes = .ok (m.computed reg co.shareStack stk bytes) := by
  simp only [compute, hgtls, hco, deref_some, ok_bind, hstk]
  rw [← hgtls]
  rfl

theorem compute_main {reg : Reg} {bytes : Bytes} (hmain : m.MainRuns) :
    compute m reg bytes = .ok { m with cpu := reg } := by
  unfold compute
  split
  · rfl
  · rfl
  · exact absurd ‹_› (hmain _)

theorem computeMain_inv {reg : Reg} (h : m.Inv A protector) (hmain : m.MainRuns) :
    Machine.Inv A protector { m with cpu := reg } := by
  refine ⟨h.laid, ?_, h.owners, fun c hg => absurd hg (hmain c)⟩
  intro c co hco
  obtain ⟨stk, hstk, hready, hsp, hsaved⟩ := h.homes c co hco
  exact ⟨stk, hstk, hready, hsp, hsaved⟩

theorem mainRuns_or (m : Machine) : m.MainRuns ∨ ∃ c, m.gtls = .co c := by
  by_cases h : ∃ c, m.gtls = .co c
  · exact .inr h
  · exact .inl fun c hc => h ⟨c, hc⟩

/-- All that an operation can do to a machine with the invariant. -/
inductive Effect (A : Arch) (protector : ℕ) (m : Machine) : Op → Machine → Prop
  | threadInit : Effect A protector m .threadInit { m with fpu := m.cpu }
  | shareStackNew {k sz : ℕ} {guardPageEnabled : Bool} {pgsz : ℤ} {addr : ℕ} {junk : Bytes}
      {stk : ShareStack} : m.stack k = none → stk.Laid A protector → 2 * stk.sz ≤ A.size →
      stk.owner = none → Effect A protector m (.shareStackNew k sz guardPageEnabled pgsz addr junk)
        { m with stack := Function.update m.stack k (some stk) }
  | create {p k saveStackSz fp arg : ℕ} {malloc : Malloc} {stk : ShareStack} : m.co p = none →
      m.stack k = some stk → Effect A protector m (.create p k saveStackSz fp arg malloc)
        (m.created p (newAco A m stk k saveStackSz fp arg malloc))
  | resume {c : ℕ} {malloc : Malloc} {m₁ : Machine} {co : Aco} {save : SaveStack} : m.MainRuns →
      m.co c = some co → co.isEnd = false → Taken A m c co.shareStack m₁ →
      m₁.co c = some { co with saveStack := save } → Effect A protector m (.resume c malloc)
        (m₁.switched A c { co with saveStack := save })
  | mainCompute {reg : Reg} {bytes : Bytes} : m.MainRuns →
      Effect A protector m (.compute reg bytes) { m with cpu := reg }
  | compute {c : ℕ} {reg : Reg} {bytes : Bytes} {co : Aco} {stk : ShareStack} : m.gtls = .co c →
      m.co c = some co → co.isEnd = false → m.stack co.shareStack = some stk →
      stk.owner = some c → WithinStack A stk reg bytes → Effect A protector m (.compute reg bytes)
        (m.computed reg co.shareStack stk bytes)
  | yield {c : ℕ} {co : Aco} {stk : ShareStack} : m.gtls = .co c → m.co c = some co →
      co.isEnd = false → m.stack co.shareStack = some stk → stk.owner = some c →
      Effect A protector m .yield (m.left A c co)
  | exit {c : ℕ} {co : Aco} {stk : ShareStack} : m.gtls = .co c → m.co c = some co →
      m.stack co.shareStack = some stk → stk.owner = some c → Effect A protector m .exit
        ((m.put c { co with isEnd := true } co.shareStack stk.release).left A c
          { co with isEnd := true })
  | destroy {c : ℕ} {co : Aco} {stk : ShareStack} : m.gtls ≠ .co c → m.co c = some co →
      m.stack co.shareStack = some stk →
      Effect A protector m (.destroy c) (m.destroyed c co.shareStack stk)
  | shareStackDestroy {k : ℕ} : (∀ c co, m.co c = some co → co.shareStack ≠ k) →
      Effect A protector m (.shareStackDestroy k)
        { m with stack := Function.update m.stack k none }

/-- What callers are allowed to do goes well. -/
theorem perform_effect (h : m.Inv A protector) (hallowed : Allowed A m op) :
    ∃ m', perform A protector m op = .ok m' ∧ Effect A protector m op m' := by
  cases op with
  | threadInit => exact ⟨_, rfl, .threadInit⟩
  | shareStackNew k sz guardPageEnabled pgsz addr junk =>
    obtain ⟨stk, hok, hmade⟩ := shareStackNew_ok protector hallowed
    have hle := hmade.le_mapped
    have hmax := hallowed.2.2.2.2.1
    refine ⟨_, ?_, .shareStackNew hallowed.1 hmade.laid (by omega) hmade.owner⟩
    simp only [perform, hok]
    rfl
  | create p k saveStackSz fp arg malloc =>
    obtain ⟨hp, stk, hstk⟩ := hallowed
    exact ⟨_, acoCreate_ok hstk, .create hp hstk⟩
  | resume c malloc =>
    obtain ⟨hmain, co, hco, hend⟩ := hallowed
    obtain ⟨m₁, save, ht, hco₁, hok⟩ := acoResume_ok malloc h hmain hco hend
    exact ⟨_, hok, .resume hmain hco hend ht hco₁⟩
  | compute reg bytes =>
    rcases mainRuns_or m with hmain | ⟨c, hgtls⟩
    · exact ⟨_, compute_main hmain, .mainCompute hmain⟩
    · obtain ⟨co, stk, hco, hend, hstk, hown, -⟩ := h.running c hgtls
      exact ⟨_, compute_ok hgtls hco hstk,
        .compute hgtls hco hend hstk hown (hallowed c co stk hgtls hco hstk)⟩
  | yield =>
    obtain ⟨c, hgtls⟩ := hallowed
    obtain ⟨co, stk, hco, hend, hstk, hown, -⟩ := h.running c hgtls
    exact ⟨_, acoYield_ok hgtls hco, .yield hgtls hco hend hstk hown⟩
  | exit =>
    obtain ⟨c, hgtls⟩ := hallowed
    obtain ⟨co, stk, hco, hend, hstk, hown, -⟩ := h.running c hgtls
    exact ⟨_, acoExit_ok hgtls hco hstk hown, .exit hgtls hco hstk hown⟩
  | destroy c =>
    obtain ⟨hgtls, co, hco⟩ := hallowed
    obtain ⟨stk, hstk, -⟩ := h.homes c co hco
    exact ⟨_, acoDestroy_ok hco hstk, .destroy hgtls hco hstk⟩
  | shareStackDestroy k =>
    obtain ⟨⟨stk, hstk⟩, hnone⟩ := hallowed
    refine ⟨_, ?_, .shareStackDestroy hnone⟩
    simp only [perform, acoShareStackDestroy, hstk]
    rfl

theorem Effect.inv (e : Effect A protector m op m') (h : m.Inv A protector) :
    m'.Inv A protector := by
  cases e with
  | threadInit =>
    refine ⟨h.laid, fun c co hco => ?_, h.owners, h.running⟩
    obtain ⟨s, hs, hready, hsp, hsaved⟩ := h.homes c co hco
    exact ⟨s, hs, hready, hsp, hsaved⟩
  | shareStackNew hk hlaid hmax hnone => exact stackNew_inv h hk hlaid hmax hnone
  | create hp hstk => exact create_inv h hp hstk
  | resume hmain hco hend ht hco₁ =>
    obtain ⟨h₁, hmain₁⟩ := ht.inv h hmain
    obtain ⟨stk, hstk, hown⟩ := ht.owner
    exact switched_inv h₁ hmain₁ hco₁ hend hstk hown
  | mainCompute hmain => exact computeMain_inv h hmain
  | compute hgtls hco hend hstk hown hw => exact computed_inv h hgtls hco hend hstk hown hw
  | yield hgtls hco => exact left_inv h hgtls hco
  | exit hgtls hco hstk hown => exact exit_inv h hgtls hco hstk hown
  | destroy hgtls hco hstk => exact destroyed_inv h hgtls hco hstk
  | shareStackDestroy hnone => exact stackDestroy_inv h hnone

theorem step_effect (h : m.Inv A protector) (hstep : (coSystem A protector).Step m op m') :
    Effect A protector m op m' := by
  obtain ⟨m'', hok, he⟩ := perform_effect h hstep.1
  rw [hstep.2] at hok
  cases hok
  exact he

theorem initial_inv (hinit : (coSystem A protector).Initial m) : m.Inv A protector := by
  obtain ⟨hgtls, hco, hstack⟩ := hinit
  constructor
  · intro k stk hs
    rw [hstack] at hs
    cases hs
  · intro c co hc
    rw [hco] at hc
    cases hc
  · intro k stk o hs
    rw [hstack] at hs
    cases hs
  · intro c hg
    rw [hgtls] at hg
    cases hg

theorem step_inv (h : m.Inv A protector) (hstep : (coSystem A protector).Step m op m') :
    m'.Inv A protector := (step_effect h hstep).inv h

theorem reachable_inv (h : (coSystem A protector).Reachable m) : m.Inv A protector :=
  System.reachable_invariant (fun _ hi => initial_inv hi) (fun _ _ _ hs hi => step_inv hi hs) h

/-- No assertion of `aco.c` fails, no copy leaves its buffer and no dangling pointer is followed,
and the word at `align_retptr`, which a coroutine of the x86 processors would return through, holds
the protector. -/
theorem coSystem_sound (h : (coSystem A protector).Reachable m) :
    (∀ op, Allowed A m op → ∃ m', perform A protector m op = .ok m') ∧
      ∀ k stk, m.stack k = some stk →
        loadWord A.word stk.bytes stk.alignRetptr = A.bytes protector := by
  have hinv := reachable_inv h
  refine ⟨fun op hop => ?_, fun k stk hstk => (hinv.laid k stk hstk).1.guarded⟩
  obtain ⟨m', hok, -⟩ := perform_effect hinv hop
  exact ⟨m', hok⟩

/-- A thread that has done nothing. -/
def startMachine : Machine :=
  ⟨fun _ => 0, .null, fun _ => 0, fun _ => 0, fun _ => none, fun _ => none⟩

theorem startMachine_initial (A : Arch) (protector : ℕ) :
    (coSystem A protector).Initial startMachine := ⟨rfl, fun _ => rfl, fun _ => rfl⟩

/-- The thread after these operations. -/
def afterOps (A : Arch) (ops : List Op) : Machine :=
  (ops.foldlM (perform A 7) startMachine).toOption.getD startMachine

/-- The same block every time. -/
def sameBlock : Malloc := fun _ => (65536, fun _ => 0)

/-- The registers and the stack of a coroutine that has called a function. -/
def calledReg : Reg := fun off => if off = 0x28 then 12200 else 5

def calledBytes : Bytes := fun a =>
  if 8208 ≤ a ∧ a < 12264 then 9 else storeWord (fun _ => 0) 12264 (Arch.bytes .x86_64 7) a

/-- Two coroutines that take turns on one share stack. -/
def turns : List Op :=
  [.shareStackNew 0 4096 false 0 8192 fun _ => 0, .create 0 0 0 100 1 sameBlock,
   .create 1 0 0 200 2 sameBlock, .resume 0 sameBlock, .compute calledReg calledBytes, .yield,
   .resume 1 sameBlock, .yield, .resume 0 sameBlock]

def turn (n : ℕ) : Machine := afterOps .x86_64 (turns.take n)

theorem withinStack_called (h : (turn 4).stack 0 = some stk) :
    WithinStack .x86_64 stk calledReg calledBytes := by
  cases h
  refine ⟨by decide, by decide, fun a ha => if_neg ?_⟩
  rcases ha with hlow | hret
  · exact fun hin => absurd hin.1 (Nat.not_le.mpr hlow)
  · exact fun hin => absurd hin.2 (Nat.not_lt.mpr hret)

theorem turn_created : (coSystem .x86_64 7).Run startMachine (turns.take 2) (turn 2) := by
  refine .stepL (t := turn 1) ⟨⟨rfl, ?_⟩, rfl⟩ (.stepL (t := turn 2) ⟨⟨rfl, _, rfl⟩, rfl⟩ .refl)
  exact ⟨by decide, by decide, by decide, by decide, nofun⟩

theorem turn_createdBoth :
    (coSystem .x86_64 7).Step (turn 2) (.create 1 0 0 200 2 sameBlock) (turn 3) :=
  ⟨⟨rfl, _, rfl⟩, rfl⟩

theorem turn_called : (coSystem .x86_64 7).Run (turn 3)
    [.resume 0 sameBlock, .compute calledReg calledBytes] (turn 5) := by
  refine .stepL (t := turn 4) ⟨⟨nofun, _, rfl, rfl⟩, rfl⟩ (.stepL (t := turn 5) ⟨?_, rfl⟩ .refl)
  intro c co stk hg hc hs
  cases hg
  cases hc
  exact withinStack_called hs

theorem turn_reachable : (coSystem .x86_64 7).Reachable (turn 5) :=
  ⟨startMachine, _, startMachine_initial _ 7,
    turn_created.append (.stepL turn_createdBoth turn_called)⟩

theorem coSystem_sound_turn :
    (coSystem .x86_64 7).Reachable (turn 5) ∧
    (∀ op, Allowed .x86_64 (turn 5) op → ∃ m', perform .x86_64 7 (turn 5) op = .ok m') ∧
      ∀ k stk, (turn 5).stack k = some stk →
        loadWord 8 stk.bytes stk.alignRetptr = Arch.bytes .x86_64 7 :=
  ⟨turn_reachable, coSystem_sound turn_reachable⟩

end UnixCodes.Libaco
