import UnixCodes.Lib.Coroutine
import UnixCodes.Libaco.Sound

/-! Coroutines on shared stacks behave like tasks that each have a stack and registers of their
own. -/
namespace UnixCodes.Libaco

open Transition

/-- What a coroutine can rely on: its own registers, the bytes from its stack pointer up to
`align_retptr`, its argument, and which share stack it runs on. -/
structure Image where
  reg : Reg
  stack : Bytes
  ret : ℕ
  arg : ℕ
  shareStack : ℕ

def Arch.image (A : Arch) (reg : Reg) (ret : ℕ) (bytes : Bytes) (co : Aco) : Image where
  reg off := if A.Private off then reg off else 0
  stack a := if reg A.sp ≤ a ∧ a < ret then bytes a else 0
  ret := ret
  arg := co.arg
  shareStack := co.shareStack

/-- The bytes of a coroutine lie on the share stack while it owns that, and else in its save
stack. -/
def Machine.bytesOf (A : Arch) (c : ℕ) (stk : ShareStack) (blk : Block) (reg : Reg) : Bytes :=
    fun a =>
  if stk.owner = some c then stk.bytes a else blk.bytes (blk.addr + (a - reg A.sp))

def Machine.regOf (m : Machine) (c : ℕ) (co : Aco) : Reg := if m.gtls = .co c then m.cpu else co.reg

/-- The image of a coroutine that has not ended. -/
def Machine.image (A : Arch) (m : Machine) (c : ℕ) : Option Image :=
  (m.co c).bind fun co =>
    if co.isEnd then none
    else (m.stack co.shareStack).bind fun stk => co.saveStack.ptr.map fun blk =>
      A.image (m.regOf c co) stk.alignRetptr (Machine.bytesOf A c stk blk (m.regOf c co)) co

def CoPtr.running : CoPtr → Option ℕ
  | .co c => some c
  | _ => none

/-- The machine as the coroutines see it. -/
def Machine.tasks (A : Arch) (m : Machine) : Tasks ℕ Image := ⟨m.gtls.running, m.image A⟩

variable {A : Arch} {protector : ℕ} {m m' : Machine} {c d k : ℕ} {co co' : Aco}
  {stk stk' : ShareStack} {blk : Block} {op : Op} {malloc : Malloc} {reg reg' : Reg}

theorem image_congr {ret : ℕ} {bytes bytes' : Bytes} (harg : co.arg = co'.arg)
    (hhome : co.shareStack = co'.shareStack) (hreg : ∀ off, A.Private off → reg off = reg' off)
    (hbytes : ∀ a, reg A.sp ≤ a → a < ret → bytes a = bytes' a) :
    A.image reg ret bytes co = A.image reg' ret bytes' co' := by
  have hsp := hreg A.sp (sp_private A)
  unfold Arch.image
  congr 1
  · funext off
    split
    · exact hreg off ‹_›
    · rfl
  · funext a
    rw [← hsp]
    split
    · rename_i h
      exact hbytes a h.1 h.2
    · rfl

theorem image_eq (hco : m.co c = some co) (hend : co.isEnd = false)
    (hstk : m.stack co.shareStack = some stk) (hptr : co.saveStack.ptr = some blk) :
    m.image A c = some (A.image (m.regOf c co) stk.alignRetptr
      (Machine.bytesOf A c stk blk (m.regOf c co)) co) := by
  simp [Machine.image, hco, hend, hstk, hptr]

theorem image_none (h : ∀ co, m.co c = some co → co.isEnd = true) : m.image A c = none := by
  unfold Machine.image
  cases hco : m.co c with
  | none => rfl
  | some co => simp [h co hco]

/-- Nobody but the coroutine that is edited sees an edit. -/
theorem Machine.Edit.image (e : m.Edit m' c k stk stk') (h : m.Inv A protector) (hd : d ≠ c) :
    m'.image A d = m.image A d := by
  cases hco : m.co d with
  | none =>
    have hco' := (e.co d hd).trans hco
    simp [Machine.image, hco, hco']
  | some co =>
    have hco' := (e.co d hd).trans hco
    by_cases hend : co.isEnd = true
    · simp [Machine.image, hco, hco', hend]
    · obtain ⟨s, hs, ⟨blk, hready⟩, -⟩ := h.homes d co hco
      have hreg : m'.regOf d co = m.regOf d co := by
        unfold Machine.regOf
        by_cases hg : m.gtls = .co d
        · rw [if_pos hg, if_pos ((e.gtls d hd).mpr hg), e.cpu d hd hg]
        · rw [if_neg hg, if_neg ((e.gtls d hd).not.mpr hg)]
      have hend' : co.isEnd = false := by simpa using hend
      by_cases hk : co.shareStack = k
      · have hstk : m.stack co.shareStack = some stk := hk ▸ e.before
        have hstk' : m'.stack co.shareStack = some stk' := hk ▸ e.after
        rw [image_eq hco' hend' hstk' hready.ptr, image_eq hco hend' hstk hready.ptr, hreg, e.ret]
        congr 1
        refine image_congr rfl rfl (fun _ _ => rfl) fun a _ _ => ?_
        unfold Machine.bytesOf
        by_cases hown : stk.owner = some d
        · rw [if_pos hown, if_pos ((e.owner d hd).mpr hown), e.bytes d hd hown]
        · rw [if_neg hown, if_neg ((e.owner d hd).not.mpr hown)]
      · have hs' : m'.stack co.shareStack = some s := (e.stack _ hk).trans hs
        rw [image_eq hco' hend' hs' hready.ptr, image_eq hco hend' hs hready.ptr, hreg]

theorem put_image (m : Machine) (c : ℕ) (co : Aco) (stk : ShareStack) (hend : co.isEnd = false)
    (hptr : co.saveStack.ptr = some blk) :
    (m.put c co co.shareStack stk).image A c = some (A.image (m.regOf c co) stk.alignRetptr
      (Machine.bytesOf A c stk blk (m.regOf c co)) co) :=
  image_eq put_co_self hend put_stack_self hptr

/-- Saving an owner moves its bytes and changes none of them. -/
theorem Evicted.image {o : ℕ} (e : Evicted A m o k m') (h : m.Inv A protector)
    (hmain : m.MainRuns) (d : ℕ) : m'.image A d = m.image A d := by
  obtain @⟨owner, stk, save, blk, hco, hhome, hstk, hown, hsaved, -, -, -⟩ := e
  by_cases hd : d = o
  · subst hd hhome
    obtain ⟨owner', hco', -, hend⟩ := h.owners _ stk d hstk hown
    rw [hco] at hco'
    cases hco'
    obtain ⟨s, -, ⟨blk₀, hready⟩, -⟩ := h.homes d owner hco
    have hreg (co : Aco) : m.regOf d co = co.reg := if_neg (hmain d)
    rw [image_eq hco hend hstk hready.ptr,
      put_image m d { owner with saveStack := save } stk.release hend hsaved.ready.ptr, hreg, hreg]
    congr 1
    refine image_congr rfl rfl (fun _ _ => rfl) fun a hge hlt => ?_
    unfold Machine.bytesOf
    rw [if_neg nofun, if_pos hown]
    exact hsaved.bytes a hge hlt
  · exact (evicted_edit _ hstk hown).image h hd

/-- So does bringing them back. -/
theorem Restored.image (e : Restored A m c k m') (h : m.Inv A protector) (hmain : m.MainRuns)
    (d : ℕ) : m'.image A d = m.image A d := by
  obtain @⟨co, stk, blk, hco, hhome, hstk, hnone, hready, hend, hlow, hret, hvalid⟩ := e
  by_cases hd : d = c
  · subst hd hhome
    have hreg (co : Aco) : m.regOf d co = co.reg := if_neg (hmain d)
    rw [image_eq hco hend hstk hready.ptr,
      put_image m d { co with saveStack := co.saveStack.restored A }
      (stk.take A d co blk) hend hready.ptr, hreg, hreg]
    congr 1
    refine image_congr rfl rfl (fun _ _ => rfl) fun a hge hlt => ?_
    have hin : co.reg A.sp ≤ a ∧ a < co.reg A.sp + co.saveStack.validSz := by
      change a < stk.alignRetptr at hlt
      exact ⟨hge, by omega⟩
    have hown : stk.owner ≠ some d := by
      rw [hnone]
      exact nofun
    have htake : (stk.take A d co blk).owner = some d := rfl
    unfold Machine.bytesOf
    rw [if_pos htake, if_neg hown]
    exact if_pos hin
  · exact (restored_edit _ _ hstk hnone).image h hd

theorem Taken.image (e : Taken A m c k m') (h : m.Inv A protector) (hmain : m.MainRuns) (d : ℕ) :
    m'.image A d = m.image A d := by
  cases e with
  | own => rfl
  | free hr => exact hr.image h hmain d
  | evict _ he hr =>
    obtain ⟨h₁, hmain₁⟩ := he.inv h hmain
    exact (hr.image h₁ hmain₁ d).trans (he.image h hmain d)

/-- The registers that a switch loads are those that the image shows. -/
theorem switched_image (h : m.Inv A protector) (hmain : m.MainRuns) (hco : m.co c = some co)
    (hend : co.isEnd = false) (d : ℕ) : (m.switched A c co).image A d = m.image A d := by
  obtain ⟨stk, hstk, ⟨blk, hready⟩, -⟩ := h.homes c co hco
  by_cases hd : d = c
  · subst hd
    have hco' : (m.switched A d co).co d = some { co with
        reg := (acosw A m.cpu m.mainReg co.reg).toReg } := Function.update_self ..
    have hreg : m.regOf d co = co.reg := if_neg (hmain d)
    rw [image_eq hco hend hstk hready.ptr, image_eq hco' hend hstk hready.ptr, hreg]
    have hcpu (co' : Aco) :
        (m.switched A d co).regOf d co' = (acosw A m.cpu m.mainReg co.reg).cpu :=
      if_pos rfl
    rw [hcpu]
    congr 1
    refine image_congr rfl rfl (fun off hoff => acosw_cpu hoff) fun a _ _ => ?_
    simp only [Machine.bytesOf, acosw_cpu (sp_private A)]
  · exact (switched_edit hstk hmain).image h hd

/-- The registers that a coroutine leaves with are those that it has had. -/
theorem left_image (h : m.Inv A protector) (hgtls : m.gtls = .co c) (hco : m.co c = some co)
    (hend : co.isEnd = false) (d : ℕ) : (m.left A c co).image A d = m.image A d := by
  obtain ⟨stk, hstk, ⟨blk, hready⟩, -⟩ := h.homes c co hco
  by_cases hd : d = c
  · subst hd
    have hco' : (m.left A d co).co d = some { co with
        reg := (acosw A m.cpu co.reg m.mainReg).fromReg } := Function.update_self ..
    have hreg : m.regOf d co = m.cpu := if_pos hgtls
    rw [image_eq hco hend hstk hready.ptr, image_eq hco' hend hstk hready.ptr, hreg]
    have hleft (co' : Aco) : (m.left A d co).regOf d co' = co'.reg := if_neg nofun
    rw [hleft]
    congr 1
    refine image_congr rfl rfl (fun off hoff => acosw_fromReg hoff) fun a _ _ => ?_
    simp only [Machine.bytesOf, acosw_fromReg (sp_private A)]
  · exact (left_edit hgtls hstk).image h hd

theorem exit_image (h : m.Inv A protector) (hgtls : m.gtls = .co c)
    (hstk : m.stack k = some stk) (hown : stk.owner = some c) :
    ((m.put c co k stk.release).left A c { co with isEnd := true }).image A =
      Function.update (m.image A) c none := by
  funext d
  by_cases hd : d = c
  · subst hd
    rw [Function.update_self]
    apply image_none
    intro co' hco'
    have hself (m : Machine) (co : Aco) : (m.left A d co).co d = some _ := Function.update_self ..
    rw [hself] at hco'
    cases hco'
    rfl
  · rw [Function.update_of_ne hd]
    exact (exit_edit hgtls hstk hown _ _).image h hd

theorem destroyed_image (h : m.Inv A protector) (hstk : m.stack k = some stk) :
    (m.destroyed c k stk).image A = Function.update (m.image A) c none := by
  funext d
  by_cases hd : d = c
  · subst hd
    rw [Function.update_self]
    apply image_none
    intro co' hco'
    have hself : (m.destroyed d k stk).co d = none := Function.update_self ..
    rw [hself] at hco'
    cases hco'
  · rw [Function.update_of_ne hd]
    exact (destroyed_edit hstk).image h hd

/-- The image of the coroutine that runs is what the processor and its share stack hold. -/
theorem running_image (h : m.Inv A protector) (hgtls : m.gtls = .co c) (hco : m.co c = some co)
    (hend : co.isEnd = false) (hstk : m.stack co.shareStack = some stk)
    (hown : stk.owner = some c) :
    m.image A c = some (A.image m.cpu stk.alignRetptr stk.bytes co) := by
  obtain ⟨s, -, ⟨blk, hready⟩, -⟩ := h.homes c co hco
  have hreg : m.regOf c co = m.cpu := if_pos hgtls
  rw [image_eq hco hend hstk hready.ptr, hreg]
  congr 1
  exact image_congr rfl rfl (fun _ _ => rfl) fun a _ _ => if_pos hown

theorem computed_image {bytes : Bytes} (h : m.Inv A protector) (hgtls : m.gtls = .co c)
    (hco : m.co c = some co) (hend : co.isEnd = false) (hstk : m.stack co.shareStack = some stk)
    (hown : stk.owner = some c) (hw : WithinStack A stk reg bytes) :
    (m.computed reg co.shareStack stk bytes).image A =
      Function.update (m.image A) c (some (A.image reg stk.alignRetptr bytes co)) := by
  funext d
  by_cases hd : d = c
  · subst hd
    have hafter : (m.computed reg co.shareStack stk bytes).stack co.shareStack =
        some { stk with bytes := bytes } := Function.update_self ..
    rw [Function.update_self]
    exact running_image (computed_inv h hgtls hco hend hstk hown hw) hgtls hco hend hafter hown
  · rw [Function.update_of_ne hd]
    exact (computed_edit hgtls hstk hown).image h hd

/-- A coroutine starts with its function behind the protector, and with an empty stack. -/
theorem create_image {saveStackSz fp arg : ℕ} (h : m.Inv A protector) (hc : m.co c = none)
    (hstk : m.stack k = some stk) :
    (m.created c (newAco A m stk k saveStackSz fp arg malloc)).image A =
      Function.update (m.image A) c (some (A.image (initialReg A fp stk.alignRetptr m.fpu)
        stk.alignRetptr (fun _ => 0) (newAco A m stk k saveStackSz fp arg malloc))) := by
  funext d
  by_cases hd : d = c
  · subst hd
    have hco' (co : Aco) : (m.created d co).co d = some co := Function.update_self ..
    have hreg (co co' : Aco) : (m.created d co).regOf d co' = co'.reg := if_neg (h.running_ne hc)
    rw [Function.update_self,
      image_eq (hco' (newAco A m stk k saveStackSz fp arg malloc)) rfl hstk rfl, hreg]
    congr 1
    refine image_congr rfl rfl (fun _ _ => rfl) fun a hge hlt => ?_
    have hsp : (newAco A m stk k saveStackSz fp arg malloc).reg A.sp = stk.alignRetptr :=
      initialReg_sp ..
    omega
  · rw [Function.update_of_ne hd]
    exact (create_edit _ hstk).image h hd

/-- The images depend on the coroutines, on who runs with which registers, and on the stacks that
coroutines live on. -/
theorem image_frame (hco : m'.co = m.co) (hgtls : m'.gtls = m.gtls)
    (hcpu : m.MainRuns ∨ m'.cpu = m.cpu)
    (hstack : ∀ c co, m.co c = some co → m'.stack co.shareStack = m.stack co.shareStack) :
    m'.tasks A = m.tasks A := by
  have himage : m'.image A = m.image A := by
    funext c
    unfold Machine.image
    rw [hco]
    cases hc : m.co c with
    | none => rfl
    | some co =>
      have hreg : m'.regOf c co = m.regOf c co := by
        unfold Machine.regOf
        rw [hgtls]
        split
        · rename_i hg
          exact (hcpu.resolve_left fun hmain => hmain c hg)
        · rfl
      simp only [Option.bind_some, hstack c co hc, hreg]
  unfold Machine.tasks
  rw [himage, hgtls]

theorem running_main (hmain : m.MainRuns) : m.gtls.running = none := by
  cases hg : m.gtls with
  | null => rfl
  | main => rfl
  | co c => exact absurd hg (hmain c)

theorem running_co : m.gtls.running = some c ↔ m.gtls = .co c := by
  cases m.gtls with
  | null => exact ⟨nofun, nofun⟩
  | main => exact ⟨nofun, nofun⟩
  | co d => simp [CoPtr.running]

/-- What an operation of `aco.c` is for the coroutines. -/
inductive Matches (A : Arch) : Op → Tasks.Event ℕ Image → Prop
  | threadInit : Matches A .threadInit .idle
  | shareStackNew {k sz : ℕ} {guardPageEnabled : Bool} {pgsz : ℤ} {addr : ℕ} {junk : Bytes} :
      Matches A (.shareStackNew k sz guardPageEnabled pgsz addr junk) .idle
  | create {p k saveStackSz fp arg ret : ℕ} {malloc : Malloc} {fpu : Reg} {co : Aco} :
      co.arg = arg → co.shareStack = k →
      Matches A (.create p k saveStackSz fp arg malloc)
        (.create p (A.image (initialReg A fp ret fpu) ret (fun _ => 0) co))
  | resume {c : ℕ} {malloc : Malloc} : Matches A (.resume c malloc) (.resume c)
  | compute {reg : Reg} {bytes : Bytes} {ret : ℕ} {co : Aco} :
      Matches A (.compute reg bytes) (.compute (A.image reg ret bytes co))
  | mainCompute {reg : Reg} {bytes : Bytes} : Matches A (.compute reg bytes) .idle
  | yield : Matches A .yield .yield
  | exit : Matches A .exit .finish
  | destroy {c : ℕ} : Matches A (.destroy c) (.drop c)
  | shareStackDestroy {k : ℕ} : Matches A (.shareStackDestroy k) .idle

theorem tasks_eq {running : Option ℕ} {context : ℕ → Option Image} (hrun : m.gtls.running = running)
    (himage : m.image A = context) : m.tasks A = ⟨running, context⟩ := by
  rw [← hrun, ← himage]
  rfl

theorem idle_of_eq {s t : Tasks ℕ Image} (h : t = s) : Tasks.Step s .idle t := h ▸ .idle

/-- Every operation does to the coroutines what it would do to tasks with stacks of their own. -/
theorem step_simulates (h : m.Inv A protector) (hstep : (coSystem A protector).Step m op m') :
    ∃ e, Matches A op e ∧ Tasks.Step (m.tasks A) e (m'.tasks A) := by
  cases step_effect h hstep with
  | threadInit =>
    exact ⟨.idle, .threadInit, idle_of_eq (image_frame rfl rfl (.inr rfl) fun _ _ _ => rfl)⟩
  | @shareStackNew k _ _ _ _ _ stk hk =>
    refine ⟨.idle, .shareStackNew, idle_of_eq (image_frame rfl rfl (.inr rfl) fun c co hco => ?_)⟩
    obtain ⟨s, hs, -⟩ := h.homes c co hco
    refine Function.update_of_ne (fun heq => ?_) ..
    rw [heq, hk] at hs
    cases hs
  | @create p k saveStackSz fp arg malloc stk hp hstk =>
    refine ⟨.create p (A.image (initialReg A fp stk.alignRetptr m.fpu) stk.alignRetptr (fun _ => 0)
      (newAco A m stk k saveStackSz fp arg malloc)), .create rfl rfl, ?_⟩
    rw [tasks_eq (m := m.created p _) rfl (create_image h hp hstk)]
    exact .create (image_none fun co hco => by rw [hp] at hco; cases hco)
  | @resume c malloc m₁ co save hmain hco hend ht hco₁ =>
    obtain ⟨h₁, hmain₁⟩ := ht.inv h hmain
    obtain ⟨stk, hstk, ⟨blk, hready⟩, -⟩ := h.homes c co hco
    refine ⟨_, .resume, ?_⟩
    rw [tasks_eq (m := m₁.switched A c _) rfl (funext fun d =>
      (switched_image h₁ hmain₁ hco₁ hend d).trans (ht.image h hmain d))]
    exact .resume (running_main hmain) (image_eq hco hend hstk hready.ptr)
  | mainCompute hmain =>
    exact ⟨.idle, .mainCompute, idle_of_eq (image_frame rfl rfl (.inl hmain) fun _ _ _ => rfl)⟩
  | @compute c reg bytes co stk hgtls hco hend hstk hown hw =>
    refine ⟨.compute (A.image reg stk.alignRetptr bytes co), .compute, ?_⟩
    rw [tasks_eq (m := m.computed reg co.shareStack stk bytes) rfl
      (computed_image h hgtls hco hend hstk hown hw)]
    exact .compute (running_co.mpr hgtls)
  | @yield c co stk hgtls hco hend =>
    refine ⟨_, .yield, ?_⟩
    rw [tasks_eq (m := m.left A c co) rfl (funext fun d => left_image h hgtls hco hend d)]
    exact .yield (running_co.mpr hgtls)
  | exit hgtls hco hstk hown =>
    refine ⟨_, .exit, ?_⟩
    rw [tasks_eq rfl (exit_image h hgtls hstk hown)]
    exact .finish (running_co.mpr hgtls)
  | @destroy c co stk hgtls hco hstk =>
    refine ⟨_, .destroy, ?_⟩
    rw [tasks_eq (m := m.destroyed c co.shareStack stk) rfl (destroyed_image h hstk)]
    exact .drop (running_co.not.mpr hgtls)
  | shareStackDestroy hnone =>
    refine ⟨.idle, .shareStackDestroy,
      idle_of_eq (image_frame rfl rfl (.inr rfl) fun c co hco => ?_)⟩
    exact Function.update_of_ne (hnone c co hco) ..

theorem run_simulates {ops : List Op} (h : m.Inv A protector)
    (hrun : (coSystem A protector).Run m ops m') :
    ∃ es, List.Forall₂ (Matches A) ops es ∧
      (Tasks.system ℕ Image).Run (m.tasks A) es (m'.tasks A) := by
  apply System.Run.simulate (Machine.tasks A) (I := fun m => m.Inv A protector) ?_ hrun h
  intro m op m' h hstep
  exact ⟨step_inv h hstep, step_simulates h hstep⟩

/-- The operations that a coroutine itself notices while it is suspended. -/
def Op.Names (op : Op) (c : ℕ) : Prop := (∃ malloc, op = .resume c malloc) ∨ op = .destroy c

theorem Matches.not_names {e : Tasks.Event ℕ Image} (h : Matches A op e) (hc : ¬ op.Names c) :
    e ≠ .resume c ∧ e ≠ .drop c := by
  constructor
  · rintro rfl
    cases h
    exact hc (.inl ⟨_, rfl⟩)
  · rintro rfl
    cases h
    exact hc (.inr rfl)

/-- The coroutine `c` runs in both machines, with the same registers as far as they are its own, and
with the same bytes between its stack pointer and `align_retptr`. -/
structure SameContext (A : Arch) (m m' : Machine) (c : ℕ) : Prop where
  runs : m'.gtls = .co c
  reg : ∀ off, A.Private off → m'.cpu off = m.cpu off
  stack : ∃ co stk co' stk', m.co c = some co ∧ m.stack co.shareStack = some stk ∧
    m'.co c = some co' ∧ m'.stack co'.shareStack = some stk' ∧
    co'.shareStack = co.shareStack ∧ co'.arg = co.arg ∧
    stk'.alignRetptr = stk.alignRetptr ∧
    ∀ a, m.cpu A.sp ≤ a → a < stk.alignRetptr → stk'.bytes a = stk.bytes a

theorem sameContext_of_image (h : m.Inv A protector) (h' : m'.Inv A protector)
    (hgtls : m.gtls = .co c) (hgtls' : m'.gtls = .co c) (himage : m'.image A c = m.image A c) :
    SameContext A m m' c := by
  obtain ⟨co, stk, hco, hend, hstk, hown, -⟩ := h.running c hgtls
  obtain ⟨co', stk', hco', hend', hstk', hown', -⟩ := h'.running c hgtls'
  rw [running_image h hgtls hco hend hstk hown, running_image h' hgtls' hco' hend' hstk' hown']
    at himage
  have heq := Option.some.inj himage
  have hret : stk'.alignRetptr = stk.alignRetptr := congrArg Image.ret heq
  have hreg : ∀ off, A.Private off → m'.cpu off = m.cpu off := by
    intro off hoff
    have := congrFun (congrArg Image.reg heq) off
    simpa only [Arch.image, if_pos hoff] using this
  refine ⟨hgtls', hreg, co, stk, co', stk', hco, hstk, hco', hstk', congrArg Image.shareStack heq,
    congrArg Image.arg heq, hret, fun a hge hlt => ?_⟩
  have hbyte := congrFun (congrArg Image.stack heq) a
  have hsp := hreg A.sp (sp_private A)
  simp only [Arch.image] at hbyte
  rwa [if_pos ⟨by omega, by omega⟩, if_pos ⟨hge, hlt⟩] at hbyte

theorem Taken.cpu (e : Taken A m c k m') : m'.cpu = m.cpu := by
  cases e with
  | own => rfl
  | free hr =>
    obtain ⟨-, -, -, -, -, -, -, -, -⟩ := hr
    rfl
  | evict ho he hr =>
    obtain ⟨-, -, -, -, -, -, -, -⟩ := he
    obtain ⟨-, -, -, -, -, -, -, -, -⟩ := hr
    rfl

/-- What the last code to run has left in a register. -/
def lastReg (off v : ℕ) (ops : List Op) : ℕ :=
  ops.foldl (fun v op => if let .compute reg _ := op then reg off else v) v

theorem step_shared {off : ℕ} (h : m.Inv A protector) (hoff : ¬ A.Private off)
    (hstep : (coSystem A protector).Step m op m') :
    m'.cpu off = lastReg off (m.cpu off) [op] := by
  cases step_effect h hstep with
  | threadInit => rfl
  | shareStackNew => rfl
  | create => rfl
  | resume hmain hco hend ht => exact (acosw_shared hoff).trans (congrFun ht.cpu off)
  | mainCompute => rfl
  | compute => rfl
  | yield => exact acosw_shared hoff
  | exit => exact acosw_shared hoff
  | destroy => rfl
  | shareStackDestroy => rfl

/-- No operation but the computing itself changes a register that the coroutines share. -/
theorem run_shared {off : ℕ} {ops : List Op} (h : m.Inv A protector) (hoff : ¬ A.Private off)
    (hrun : (coSystem A protector).Run m ops m') :
    m'.cpu off = lastReg off (m.cpu off) ops := by
  induction hrun with
  | refl => rfl
  | @stepL m op m₁ ops m₂ hstep _ ih =>
    have htail :
        lastReg off (m.cpu off) (op :: ops) = lastReg off (lastReg off (m.cpu off) [op]) ops := rfl
    rw [ih (step_inv h hstep), step_shared h hoff hstep, htail]

/-- A coroutine that is resumed goes on where it has yielded, whatever other coroutines have done
on the same stack in between; only the registers that it shares with them are as they have left
these. -/
theorem resume_private {m₁ m₂ m₃ : Machine} {ops : List Op} (h : (coSystem A protector).Reachable m)
    (hgtls : m.gtls = .co c) (hyield : (coSystem A protector).Step m .yield m₁)
    (hrun : (coSystem A protector).Run m₁ ops m₂) (hops : ∀ op ∈ ops, ¬ op.Names c)
    (hresume : (coSystem A protector).Step m₂ (.resume c malloc) m₃) :
    SameContext A m m₃ c ∧ ∀ off, ¬ A.Private off → m₃.cpu off = lastReg off (m.cpu off) ops := by
  have hinv := reachable_inv h
  have hinv₁ := step_inv hinv hyield
  have hinv₂ : m₂.Inv A protector :=
    System.run_invariant (fun _ _ _ hs hi => step_inv hi hs) hrun hinv₁
  have hinv₃ := step_inv hinv₂ hresume
  obtain ⟨co, stk, hco, hend, hstk, hown, -⟩ := hinv.running c hgtls
  obtain ⟨e, he, hyield'⟩ := step_simulates hinv hyield
  obtain ⟨es, hes, hrun'⟩ := run_simulates hinv₁ hrun
  obtain ⟨e', he', hresume'⟩ := step_simulates hinv₂ hresume
  cases he
  cases he'
  have hothers : ∀ e ∈ es, e ≠ .resume c ∧ e ≠ .drop c := by
    intro e he
    obtain ⟨op, hop, hmatch⟩ := System.exists_mem_of_forall₂ hes he
    exact hmatch.not_names (hops op hop)
  obtain ⟨hrunning, hcontext⟩ := Tasks.resumed (running_image hinv hgtls hco hend hstk hown) hyield'
    hrun' hothers hresume'
  refine ⟨sameContext_of_image hinv hinv₃ hgtls (running_co.mp hrunning) ?_, fun off hoff => ?_⟩
  · rw [running_image hinv hgtls hco hend hstk hown]
    exact hcontext
  · rw [step_shared hinv₂ hoff hresume, run_shared hinv₁ hoff hrun, step_shared hinv hoff hyield]
    rfl

theorem turn_other : (coSystem .x86_64 7).Run (turn 6) [.resume 1 sameBlock, .yield] (turn 8) :=
  .stepL (t := turn 7) ⟨⟨nofun, _, rfl, rfl⟩, rfl⟩ (.stepL (t := turn 8) ⟨⟨1, rfl⟩, rfl⟩ .refl)

theorem resume_private_turns :
    (coSystem .x86_64 7).Reachable (turn 5) ∧ SameContext .x86_64 (turn 5) (turn 9) 0 := by
  have hresume : (coSystem .x86_64 7).Step (turn 8) (.resume 0 sameBlock) (turn 9) :=
    ⟨⟨nofun, _, rfl, rfl⟩, rfl⟩
  have hops : ∀ op ∈ [Op.resume 1 sameBlock, .yield], ¬ op.Names 0 := by simp [Op.Names]
  obtain ⟨hsame, -⟩ := resume_private turn_reachable rfl ⟨⟨0, rfl⟩, rfl⟩ turn_other hops hresume
  exact ⟨turn_reachable, hsame⟩

/-- A coroutine that has not run starts at its function, with nothing on the stack but the word that
holds the protector. -/
structure Starts (A : Arch) (protector : ℕ) (m : Machine) (c k fp : ℕ) (fpu : Reg) : Prop where
  runs : m.gtls = .co c
  retaddr : m.cpu A.retaddr = fp
  fpu : A ≠ .aarch64 → ∀ off ∈ A.fpu, m.cpu off = fpu off
  stack : ∃ stk, m.stack k = some stk ∧ m.cpu A.sp = stk.alignRetptr ∧
    loadWord A.word stk.bytes (m.cpu A.sp) = A.bytes protector

theorem initialReg_retaddr (A : Arch) (fp ret : ℕ) (fpu : Reg) :
    initialReg A fp ret fpu A.retaddr = fp := if_pos rfl

theorem initialReg_fpu {off fp ret : ℕ} {fpu : Reg} (hoff : off ∈ A.fpu) :
    initialReg A fp ret fpu off = fpu off := by
  have hne : off ≠ A.retaddr ∧ off ≠ A.sp := by
    revert off
    cases A <;> decide
  rw [initialReg, if_neg hne.1, if_neg hne.2, if_pos hoff]

theorem retaddr_private (A : Arch) : A.Private A.retaddr := by
  cases A <;> decide

/-- Whatever happens between its creation and its first turn. -/
theorem first_resume {m₁ m₂ m₃ : Machine} {ops : List Op} {saveStackSz fp arg : ℕ}
    {malloc' : Malloc} (h : (coSystem A protector).Reachable m)
    (hcreate : (coSystem A protector).Step m (.create c k saveStackSz fp arg malloc) m₁)
    (hrun : (coSystem A protector).Run m₁ ops m₂) (hops : ∀ op ∈ ops, ¬ op.Names c)
    (hresume : (coSystem A protector).Step m₂ (.resume c malloc') m₃) :
    Starts A protector m₃ c k fp m.fpu := by
  have hinv := reachable_inv h
  have hinv₁ := step_inv hinv hcreate
  have hinv₂ : m₂.Inv A protector :=
    System.run_invariant (fun _ _ _ hs hi => step_inv hi hs) hrun hinv₁
  have hinv₃ := step_inv hinv₂ hresume
  obtain ⟨⟨hc, stk, hstk⟩, hok⟩ := hcreate
  rw [perform, acoCreate_ok hstk] at hok
  cases hok
  obtain ⟨es, hes, hrun'⟩ := run_simulates hinv₁ hrun
  obtain ⟨e, he, hresume'⟩ := step_simulates hinv₂ hresume
  cases he
  have hothers : ∀ e ∈ es, e ≠ .resume c ∧ e ≠ .drop c := by
    intro e he
    obtain ⟨op, hop, hmatch⟩ := System.exists_mem_of_forall₂ hes he
    exact hmatch.not_names (hops op hop)
  have hfresh : (m.tasks A).running ≠ some c := running_co.not.mpr (hinv.running_ne hc)
  have hnone : (m.tasks A).context c = none := image_none fun co hco => by
    rw [hc] at hco
    cases hco
  have htasks := tasks_eq (m := m.created c (newAco A m stk k saveStackSz fp arg malloc)) rfl
    (create_image hinv hc hstk)
  rw [htasks] at hrun'
  obtain ⟨hrunning, hcontext⟩ := Tasks.started hfresh (.create hnone) hrun' hothers hresume'
  have hgtls := running_co.mp hrunning
  obtain ⟨co', stk', hco', hend', hstk', hown', -⟩ := hinv₃.running c hgtls
  have heq : A.image m₃.cpu stk'.alignRetptr stk'.bytes co' = _ :=
    Option.some.inj ((running_image hinv₃ hgtls hco' hend' hstk' hown').symm.trans hcontext)
  have hreg : ∀ off, A.Private off → m₃.cpu off = initialReg A fp stk.alignRetptr m.fpu off := by
    intro off hoff
    have := congrFun (congrArg Image.reg heq) off
    simpa only [Arch.image, if_pos hoff] using this
  have hret : stk'.alignRetptr = stk.alignRetptr := congrArg Image.ret heq
  have hhome : co'.shareStack = k := congrArg Image.shareStack heq
  have hsp : m₃.cpu A.sp = stk'.alignRetptr := by
    rw [hreg _ (sp_private A), initialReg_sp, hret]
  refine ⟨hgtls, (hreg _ (retaddr_private A)).trans (initialReg_retaddr ..), ?_,
    stk', hhome ▸ hstk', hsp, ?_⟩
  · exact fun hA off hoff => (hreg off fun hp => hA hp.1).trans (initialReg_fpu hoff)
  · rw [hsp]
    exact (hinv₃.laid _ _ hstk').1.guarded

theorem first_resume_turn : (coSystem .x86_64 7).Reachable (turn 7) ∧
    Starts .x86_64 7 (turn 7) 1 0 200 (fun _ => 0) := by
  have hreach : (coSystem .x86_64 7).Reachable (turn 2) :=
    ⟨startMachine, _, startMachine_initial _ 7, turn_created⟩
  have hyield : (coSystem .x86_64 7).Step (turn 5) .yield (turn 6) := ⟨⟨0, rfl⟩, rfl⟩
  have hrun := turn_called.append (.stepL hyield .refl)
  have hresume : (coSystem .x86_64 7).Step (turn 6) (.resume 1 sameBlock) (turn 7) :=
    ⟨⟨nofun, _, rfl, rfl⟩, rfl⟩
  have hops : ∀ op ∈ [Op.resume 0 sameBlock, .compute calledReg calledBytes, .yield],
      ¬ op.Names 1 := by simp [Op.Names]
  exact ⟨(turn_reachable.step hyield).step hresume,
    first_resume hreach turn_createdBoth hrun hops hresume⟩

/-- What the last code to run has left in the control word. -/
def lastFpcr (v : ℕ) (ops : List Op) : ℕ := lastReg 0x78 v ops

/-- On `aarch64` no switch changes the floating-point control word: a coroutine runs with what the
last code to set it has left, and never with what `aco_create` has recorded for it. -/
theorem fpcr_shared {ops : List Op} (h : (coSystem .aarch64 protector).Reachable m)
    (hrun : (coSystem .aarch64 protector).Run m ops m') :
    m'.cpu 0x78 = lastFpcr (m.cpu 0x78) ops :=
  run_shared (reachable_inv h) (by decide) hrun

/-- A coroutine whose control word `aco_create` has recorded as 0. -/
def a64Turns : List Op :=
  [.shareStackNew 0 4096 false 0 8192 fun _ => 0, .create 0 0 0 100 1 sameBlock,
   .compute (fun _ => 5) fun _ => 0, .resume 0 sameBlock]

theorem fpcr_shared_turns :
    (coSystem .aarch64 7).Run startMachine a64Turns (afterOps .aarch64 a64Turns) ∧
      (afterOps .aarch64 a64Turns).cpu 0x78 = 5 := by
  have hrun : (coSystem .aarch64 7).Run startMachine a64Turns (afterOps .aarch64 a64Turns) := by
    refine .stepL (t := afterOps .aarch64 (a64Turns.take 1)) ⟨⟨rfl, ?_⟩, rfl⟩
      (.stepL (t := afterOps .aarch64 (a64Turns.take 2)) ⟨⟨rfl, _, rfl⟩, rfl⟩
        (.stepL (t := afterOps .aarch64 (a64Turns.take 3)) ⟨nofun, rfl⟩
          (.stepL (t := afterOps .aarch64 a64Turns) ⟨⟨nofun, _, rfl, rfl⟩, rfl⟩ .refl)))
    exact ⟨by decide, by decide, by decide, by decide, nofun⟩
  exact ⟨hrun, fpcr_shared ⟨startMachine, [], startMachine_initial _ 7, .refl⟩ hrun⟩

end UnixCodes.Libaco
