import UnixCodes.Libaco.Private

/-! What the callers of `aco.c` see of their coroutines. -/
namespace UnixCodes.Libaco

open Transition

/-- The fields of an `aco_t` that do not change while others run. -/
structure Handle where
  arg : ℕ
  fp : ℕ
  isEnd : Bool
  shareStack : ℕ
  deriving DecidableEq

def Aco.handle (co : Aco) : Handle := ⟨co.arg, co.fp, co.isEnd, co.shareStack⟩

def Machine.handles (m : Machine) (c : ℕ) : Option Handle := (m.co c).map Aco.handle

def Machine.HasStack (m : Machine) (k : ℕ) : Prop := ∃ stk, m.stack k = some stk

variable {A : Arch} {protector : ℕ} {m m' : Machine} {c d k j fp arg : ℕ} {co co' : Aco}
  {stk : ShareStack} {op : Op} {h : Handle}

theorem handles_eq_some : m.handles c = some h ↔ ∃ co, m.co c = some co ∧ co.handle = h :=
  Option.map_eq_some_iff

theorem handles_eq_none : m.handles c = none ↔ m.co c = none := Option.map_eq_none_iff

theorem handles_of_co (hco : m.co = Function.update m'.co c (some co)) :
    m.handles = Function.update m'.handles c (some co.handle) := by
  funext d
  by_cases hd : d = c
  · rw [hd, Function.update_self, Machine.handles, hco, Function.update_self]
    rfl
  · rw [Function.update_of_ne hd, Machine.handles, hco, Function.update_of_ne hd]
    rfl

/-- Nobody outside sees the registers or the save stack. -/
theorem handles_same (hco : m.co = Function.update m'.co c (some co)) (hc : m'.co c = some co')
    (hh : co.handle = co'.handle) : m.handles = m'.handles := by
  rw [handles_of_co hco, hh]
  have hself : m'.handles c = some co'.handle := handles_eq_some.mpr ⟨co', hc, rfl⟩
  rw [← hself, Function.update_eq_self]

theorem switched_handles (hco : m.co c = some co) : (m.switched A c co).handles = m.handles := by
  have hset : (m.switched A c co).co = Function.update m.co c
      (some { co with reg := (acosw A m.cpu m.mainReg co.reg).toReg }) := rfl
  exact handles_same hset hco rfl

theorem left_handles (hco : m.co c = some co) : (m.left A c co).handles = m.handles := by
  have hset : (m.left A c co).co = Function.update m.co c
      (some { co with reg := (acosw A m.cpu co.reg m.mainReg).fromReg }) := rfl
  exact handles_same hset hco rfl

theorem Taken.handles (e : Taken A m c k m') : m'.handles = m.handles := by
  have hrestored {m m' : Machine} (e : Restored A m c k m') : m'.handles = m.handles := by
    obtain ⟨hco, -, -, -, -, -, -, -, -⟩ := e
    exact handles_same rfl hco rfl
  cases e with
  | own => rfl
  | free hr => exact hrestored hr
  | evict _ he hr =>
    obtain ⟨hco, -, -, -, -, -, -, -⟩ := he
    exact (hrestored hr).trans (handles_same rfl hco rfl)

theorem HasStack.update (hk : m.HasStack k) (hm : m'.stack = Function.update m.stack j (some stk)) :
    m'.HasStack k := by
  obtain ⟨s, hs⟩ := hk
  by_cases he : k = j
  · exact ⟨stk, by rw [hm, he, Function.update_self]⟩
  · exact ⟨s, by rw [hm, Function.update_of_ne he, hs]⟩

theorem Taken.hasStack (e : Taken A m c j m') (hk : m.HasStack k) : m'.HasStack k := by
  cases e with
  | own => exact hk
  | free hr =>
    obtain ⟨-, -, -, -, -, -, -, -, -⟩ := hr
    exact HasStack.update hk rfl
  | evict _ he hr =>
    obtain ⟨-, -, -, -, -, -, -, -⟩ := he
    obtain ⟨-, -, -, -, -, -, -, -, -⟩ := hr
    exact HasStack.update (HasStack.update hk rfl) rfl

theorem Effect.hasStack (e : Effect A protector m op m') (hop : op ≠ .shareStackDestroy k)
    (hk : m.HasStack k) : m'.HasStack k := by
  cases e with
  | threadInit | create | mainCompute | yield => exact hk
  | shareStackNew => exact HasStack.update hk rfl
  | resume hmain hco hend ht hco₁ => exact ht.hasStack hk
  | compute => exact HasStack.update hk rfl
  | exit => exact HasStack.update hk rfl
  | destroy => exact HasStack.update hk rfl
  | @shareStackDestroy j hnone =>
    obtain ⟨stk, hstk⟩ := hk
    have hne : k ≠ j := fun he => hop (congrArg Op.shareStackDestroy he.symm)
    exact ⟨stk, (Function.update_of_ne hne ..).trans hstk⟩

/-- A thread and its coroutines, as the program on top of `aco.c` knows them. -/
structure Usage where
  running : Option ℕ
  handles : ℕ → Option Handle

/-- The protocol of use, with all coroutines on the share stack `k`. -/
inductive Usage.Step (k : ℕ) : Usage → Option Op → Usage → Prop
  | none {u : Usage} : Step k u none u
  | create {u : Usage} {p : ℕ} (hp : u.handles p = none) (saveStackSz fp arg : ℕ)
      (malloc : Malloc) : Step k u (some (.create p k saveStackSz fp arg malloc))
        { u with handles := Function.update u.handles p (some ⟨arg, fp, false, k⟩) }
  | resume {u : Usage} {c : ℕ} {h : Handle} (hrun : u.running = Option.none)
      (hc : u.handles c = some h) (hend : h.isEnd = false) (malloc : Malloc) :
      Step k u (some (.resume c malloc)) { u with running := some c }
  | yield {u : Usage} {c : ℕ} (hrun : u.running = some c) :
      Step k u (some .yield) { u with running := Option.none }
  | exit {u : Usage} {c : ℕ} {h : Handle} (hrun : u.running = some c)
      (hc : u.handles c = some h) :
      Step k u (some .exit)
        ⟨Option.none, Function.update u.handles c (some { h with isEnd := true })⟩
  | destroy {u : Usage} {c : ℕ} {h : Handle} (hrun : u.running ≠ some c)
      (hc : u.handles c = some h) :
      Step k u (some (.destroy c)) { u with handles := Function.update u.handles c Option.none }

def Machine.usage (m : Machine) : Usage := ⟨m.gtls.running, m.handles⟩

def performCall (A : Arch) (protector : ℕ) (m : Machine) : Option Op → Except Fault Machine
  | none => .ok m
  | some op => perform A protector m op

theorem mainRuns_of_running (hrun : m.gtls.running = none) : m.MainRuns := by
  intro c hc
  rw [running_co.mpr hc] at hrun
  cases hrun

/-- What the protocol allows, `aco.c` allows. -/
theorem Usage.Step.allowed {u : Usage} {call : Option Op} (hu : Usage.Step k m.usage call u)
    (hk : m.HasStack k) : ∀ op ∈ call, Allowed A m op := by
  rintro op hop
  generalize hm : m.usage = v at hu
  cases hu with
  | none => cases hop
  | create hp =>
    cases hop
    subst hm
    exact ⟨handles_eq_none.mp hp, hk⟩
  | resume hrun hc hend =>
    cases hop
    subst hm
    obtain ⟨co, hco, rfl⟩ := handles_eq_some.mp hc
    exact ⟨mainRuns_of_running hrun, co, hco, hend⟩
  | yield hrun =>
    cases hop
    subst hm
    exact ⟨_, running_co.mp hrun⟩
  | exit hrun hc =>
    cases hop
    subst hm
    exact ⟨_, running_co.mp hrun⟩
  | destroy hrun hc =>
    cases hop
    subst hm
    obtain ⟨co, hco, -⟩ := handles_eq_some.mp hc
    exact ⟨fun hg => hrun (running_co.mpr hg), co, hco⟩

/-- What an operation of the protocol does for its caller. -/
theorem Effect.usage {u : Usage} (e : Effect A protector m op m')
    (hu : Usage.Step k m.usage (some op) u) : m'.usage = u := by
  generalize hm : m.usage = v at hu
  cases e with
  | threadInit | shareStackNew | shareStackDestroy | mainCompute | compute => cases hu
  | @create p k saveStackSz fp arg malloc stk hp hstk =>
    cases hu
    subst hm
    have hco : (m.created p (newAco A m stk k saveStackSz fp arg malloc)).co =
        Function.update m.co p (some (newAco A m stk k saveStackSz fp arg malloc)) := rfl
    exact congrArg (Usage.mk m.gtls.running) (handles_of_co hco)
  | resume hmain hco hend ht hco₁ =>
    cases hu
    subst hm
    exact congrArg (Usage.mk _) ((switched_handles hco₁).trans ht.handles)
  | yield hgtls hco hend hstk hown =>
    cases hu
    subst hm
    exact congrArg (Usage.mk _) (left_handles hco)
  | @exit c co stk hgtls hco hstk hown =>
    cases hu with
    | exit hrun hc =>
      subst hm
      obtain rfl := Option.some.inj ((running_co.mpr hgtls).symm.trans hrun)
      obtain ⟨co', hco', rfl⟩ := handles_eq_some.mp hc
      rw [hco] at hco'
      cases hco'
      have hset : (m.put c { co with isEnd := true } co.shareStack stk.release).co =
          Function.update m.co c (some { co with isEnd := true }) := rfl
      exact congrArg (Usage.mk none) ((left_handles put_co_self).trans (handles_of_co hset))
  | @destroy c co stk hgtls hco hstk =>
    cases hu
    subst hm
    refine congrArg (Usage.mk _) ?_
    funext d
    by_cases hd : d = c
    · rw [hd, Function.update_self, handles_eq_none]
      exact Function.update_self ..
    · rw [Function.update_of_ne hd]
      exact congrArg (Option.map Aco.handle) (Function.update_of_ne hd ..)

/-- While somebody computes no coroutine changes for the program. -/
theorem Effect.compute_usage {reg : Reg} {bytes : Bytes}
    (e : Effect A protector m (.compute reg bytes) m') : m'.usage = m.usage := by
  cases e <;> rfl

/-- `aco.c` does its part of the protocol. -/
theorem performCall_ok {u : Usage} {call : Option Op} (h : m.Inv A protector) (hk : m.HasStack k)
    (hu : Usage.Step k m.usage call u) : ∃ m', performCall A protector m call = .ok m' ∧
      (coSystem A protector).Run m call.toList m' ∧ m'.HasStack k ∧ m'.usage = u := by
  have hallowed : ∀ op ∈ call, Allowed A m op := hu.allowed hk
  cases call with
  | none =>
    cases hu
    exact ⟨m, rfl, .refl, hk, rfl⟩
  | some op =>
    obtain ⟨m', hok, he⟩ := perform_effect h (hallowed op rfl)
    have hkeep : op ≠ .shareStackDestroy k := by
      rintro rfl
      cases hu
    exact ⟨m', hok, .stepL ⟨hallowed op rfl, hok⟩ .refl, he.hasStack hkeep hk, he.usage hu⟩

theorem Effect.threadInit_usage (e : Effect A protector m .threadInit m') :
    m'.usage = m.usage := by
  cases e
  rfl

theorem Effect.shareStackNew_usage {sz addr : ℕ} {guardPageEnabled : Bool} {pgsz : ℤ}
    {junk : Bytes} (e : Effect A protector m
      (.shareStackNew k sz guardPageEnabled pgsz addr junk) m') :
    m'.usage = m.usage ∧ m'.HasStack k := by
  cases e
  exact ⟨rfl, _, Function.update_self ..⟩

/-- A coroutine that has not ended and does not run. -/
def Usage.Suspended (u : Usage) (c : ℕ) : Prop :=
  u.running ≠ some c ∧ ∃ h, u.handles c = some h ∧ h.isEnd = false

/-- It stays so until an operation names it. -/
theorem Usage.Suspended.step {u u' : Usage} {call : Option Op} (h : u.Suspended c)
    (hu : Usage.Step k u call u') (hcall : ∀ op ∈ call, ¬ op.Names c) : u'.Suspended c := by
  obtain ⟨hrun, hd, hc, hend⟩ := h
  cases hu with
  | none => exact ⟨hrun, hd, hc, hend⟩
  | @create p hp =>
    have hne : c ≠ p := by
      rintro rfl
      rw [hp] at hc
      cases hc
    exact ⟨hrun, hd, (Function.update_of_ne hne ..).trans hc, hend⟩
  | @resume d =>
    refine ⟨fun he => ?_, hd, hc, hend⟩
    cases he
    exact hcall _ rfl (.inl ⟨_, rfl⟩)
  | yield => exact ⟨nofun, hd, hc, hend⟩
  | @exit d _ hrun' =>
    have hne : c ≠ d := by
      rintro rfl
      exact hrun hrun'
    exact ⟨nofun, hd, (Function.update_of_ne hne ..).trans hc, hend⟩
  | @destroy d =>
    have hne : c ≠ d := by
      rintro rfl
      exact hcall _ rfl (.inr rfl)
    exact ⟨hrun, hd, (Function.update_of_ne hne ..).trans hc, hend⟩

end UnixCodes.Libaco
