import UnixCodes.Libaco.Sound

/-! The counters of `aco_save_stack_t`: what has been saved is brought back once. -/
namespace UnixCodes.Libaco

open Transition

/-- The counters of a coroutine agree while it owns its share stack; otherwise one more save than
restores has been made, if there was anything to save. -/
structure Aco.Counted (A : Arch) (c : ℕ) (co : Aco) (stk : ShareStack) : Prop where
  owned : stk.owner = some c → co.saveStack.ctSave = co.saveStack.ctRestore
  pending : stk.owner ≠ some c →
    co.saveStack.ctSave = countCopy A co.saveStack.ctRestore co.saveStack.validSz
  validSz : co.saveStack.validSz ≤ co.saveStack.maxCpsz
  maxCpsz : co.saveStack.maxCpsz ≤ stk.alignRetptr - stk.low

def Machine.Counted (A : Arch) (m : Machine) : Prop :=
  ∀ c co stk, m.co c = some co → co.isEnd = false → m.stack co.shareStack = some stk →
    co.Counted A c stk

variable {A : Arch} {protector : ℕ} {m m' : Machine} {c k : ℕ} {co : Aco}
  {stk stk' : ShareStack} {op : Op}

theorem Machine.Edit.counted (e : m.Edit m' c k stk stk') (h : m.Counted A)
    (hself : ∀ co', m'.co c = some co' → co'.isEnd = false →
      co'.shareStack = k ∧ co'.Counted A c stk') : m'.Counted A := by
  intro d co s hco hend hs
  by_cases hd : d = c
  · subst hd
    obtain ⟨hk, hcounted⟩ := hself co hco hend
    rw [hk, e.after] at hs
    cases hs
    exact hcounted
  · rw [e.co d hd] at hco
    by_cases hk : co.shareStack = k
    · rw [hk, e.after] at hs
      cases hs
      have hold := h d co stk hco hend (hk ▸ e.before)
      have howner := e.owner d hd
      refine ⟨fun ho => hold.owned (howner.mp ho), fun ho => hold.pending (howner.not.mp ho),
        hold.validSz, ?_⟩
      rw [e.ret, e.low]
      exact hold.maxCpsz
    · rw [e.stack _ hk] at hs
      exact h d co s hco hend hs

theorem Evicted.counted {o : ℕ} (e : Evicted A m o k m') (hinv : m.Inv A protector)
    (hmain : m.MainRuns) (h : m.Counted A) : m'.Counted A := by
  obtain @⟨owner, stk, save, blk, hco, hhome, hstk, hown, hsaved, hct, hrestore, hcpsz⟩ := e
  refine (evicted_edit _ hstk hown).counted h fun co' hco' hend => ?_
  rw [put_co_self] at hco'
  cases hco'
  have hold := h o owner stk hco hend (hhome ▸ hstk)
  obtain ⟨s, hs, -, hsp, -⟩ := hinv.homes o owner hco
  rw [hhome, hstk] at hs
  cases hs
  obtain ⟨hlow, hret⟩ := hsp hend (hmain o)
  refine ⟨hhome, nofun, fun _ => ?_, ?_, ?_⟩
  · simp only
    rw [hct, hrestore, hold.owned hown]
  · simp only
    omega
  · have hvalid := hsaved.validSz
    have hmax := hold.maxCpsz
    change save.maxCpsz ≤ stk.alignRetptr - stk.low
    omega

theorem Restored.counted (e : Restored A m c k m') (h : m.Counted A) : m'.Counted A := by
  obtain @⟨co, stk, blk, hco, hhome, hstk, hnone, hready, hend, hlow, hret, hvalid⟩ := e
  refine (restored_edit _ _ hstk hnone).counted h fun co' hco' _ => ?_
  rw [put_co_self] at hco'
  cases hco'
  have hold := h c co stk hco hend (hhome ▸ hstk)
  have hmax := hold.maxCpsz
  have hpending := hold.pending (by simp [hnone])
  refine ⟨hhome, fun _ => hpending, fun hne => absurd rfl hne, le_max_right .., ?_⟩
  change max co.saveStack.maxCpsz co.saveStack.validSz ≤ stk.alignRetptr - stk.low
  omega

theorem Taken.counted (e : Taken A m c k m') (hinv : m.Inv A protector) (hmain : m.MainRuns)
    (h : m.Counted A) : m'.Counted A := by
  cases e with
  | own => exact h
  | free hr => exact hr.counted h
  | evict _ he hr => exact hr.counted (he.counted hinv hmain h)

/-- A coroutine whose save stack is what it was, on a stack with the owner that it had. -/
theorem Aco.Counted.same {co' : Aco} (h : co.Counted A c stk) (hsave : co'.saveStack = co.saveStack)
    (howner : stk'.owner = stk.owner) (hret : stk'.alignRetptr = stk.alignRetptr)
    (hlow : stk'.low = stk.low) : co'.Counted A c stk' := by
  obtain ⟨howned, hpending, hvalid, hmax⟩ := h
  exact ⟨by rwa [howner, hsave], by rwa [howner, hsave], by rwa [hsave], by rwa [hsave, hret, hlow]⟩

theorem step_counted (hinv : m.Inv A protector) (h : m.Counted A)
    (hstep : (coSystem A protector).Step m op m') : m'.Counted A := by
  cases step_effect hinv hstep with
  | threadInit => exact h
  | @shareStackNew k _ _ _ _ _ stk hk =>
    intro c co s hco hend hs
    obtain ⟨s', hs', -⟩ := hinv.homes c co hco
    have hne : co.shareStack ≠ k := by
      intro heq
      rw [heq, hk] at hs'
      cases hs'
    have hs'' : Function.update m.stack k (some stk) co.shareStack = some s := hs
    rw [Function.update_of_ne hne] at hs''
    exact h c co s hco hend hs''
  | @create p k _ _ _ _ stk hp hstk =>
    refine (create_edit _ hstk).counted h fun co' hco' _ => ?_
    have hself (co : Aco) : (m.created p co).co p = some co := Function.update_self ..
    rw [hself] at hco'
    cases hco'
    exact ⟨rfl, fun ho => absurd ho (hinv.fresh hp hstk), fun _ => rfl, le_rfl, Nat.zero_le _⟩
  | @resume c malloc m₁ co save hmain hco hend ht hco₁ =>
    obtain ⟨stk, hstk, hown⟩ := ht.owner
    have hcounted := ht.counted hinv hmain h
    refine (switched_edit hstk (ht.inv hinv hmain).2).counted hcounted fun co' hco' _ => ?_
    have hself (co : Aco) : (m₁.switched A c co).co c = some _ := Function.update_self ..
    rw [hself] at hco'
    cases hco'
    exact ⟨rfl, (hcounted c _ stk hco₁ hend hstk).same rfl rfl rfl rfl⟩
  | mainCompute => exact h
  | @compute c reg bytes co stk hgtls hco hend hstk hown =>
    refine (computed_edit hgtls hstk hown).counted h fun co' hco' _ => ?_
    have heq : m.co c = some co' := hco'
    rw [hco] at heq
    cases heq
    exact ⟨rfl, (h c co stk hco hend hstk).same rfl rfl rfl rfl⟩
  | @yield c co stk hgtls hco hend hstk =>
    refine (left_edit hgtls hstk).counted h fun co' hco' _ => ?_
    have hself (co : Aco) : (m.left A c co).co c = some _ := Function.update_self ..
    rw [hself] at hco'
    cases hco'
    exact ⟨rfl, (h c co stk hco hend hstk).same rfl rfl rfl rfl⟩
  | @exit c co stk hgtls hco hstk hown =>
    refine (exit_edit hgtls hstk hown _ _).counted h fun co' hco' hend => ?_
    have hself (m : Machine) (co : Aco) : (m.left A c co).co c = some _ := Function.update_self ..
    rw [hself] at hco'
    cases hco'
    cases hend
  | @destroy c co stk hgtls hco hstk =>
    refine (destroyed_edit hstk).counted h fun co' hco' _ => ?_
    have hself : (m.destroyed c co.shareStack stk).co c = none := Function.update_self ..
    rw [hself] at hco'
    cases hco'
  | @shareStackDestroy k hnone =>
    intro c co s hco hend hs
    have hs' : Function.update m.stack k none co.shareStack = some s := hs
    rw [Function.update_of_ne (hnone c co hco)] at hs'
    exact h c co s hco hend hs'

/-- In every run, for every coroutine that has not ended. -/
theorem reachable_counted (h : (coSystem A protector).Reachable m) (hco : m.co c = some co)
    (hend : co.isEnd = false) : ∃ stk, m.stack co.shareStack = some stk ∧ co.Counted A c stk := by
  have hcounted : m.Counted A := by
    refine System.reachable_induction (P := fun m => m.Counted A) ?_ ?_ h
    · intro m hinit c co stk hco
      rw [hinit.2.1] at hco
      cases hco
    · intro m op m' hr hstep h
      exact step_counted (reachable_inv hr) h hstep
  obtain ⟨stk, hstk, -⟩ := (reachable_inv h).homes c co hco
  exact ⟨stk, hstk, hcounted c co stk hco hend hstk⟩

theorem reachable_counted_turn : (coSystem .x86_64 7).Reachable (turn 5) ∧
    ∃ co, (turn 5).co 0 = some co ∧
      ∃ stk, (turn 5).stack co.shareStack = some stk ∧ co.Counted .x86_64 0 stk :=
  ⟨turn_reachable, _, rfl, reachable_counted turn_reachable rfl rfl⟩

end UnixCodes.Libaco
