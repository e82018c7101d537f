import Mathlib.Algebra.Order.BigOperators.Group.Finset
import UnixCodes.ThreadPool.Wakeup

/-! `release_thread_poll` returns: after `stop` only the tasks that are still created can put it
off. -/
namespace UnixCodes.ThreadPool

open Transition

variable {F A : Type} {W P : ℕ} {s t : State F A W P} {act : Action W P} {xs : List (Action W P)}
  {l : List Addr} {w : Fin W} {c : Caller W P} {k : Worker} {x : AddPc} {V : Finset (Fin W)}

/-- A spurious wake-up that wakes nobody changes nothing, and could go on for ever. -/
def Useful (s : State F A W P) (act : Action W P) : Prop := ∀ w, act = .spurious w → s.Blocked w

/-- What the threads do of themselves; nobody has to create a task, and a spurious wake-up need not
come. -/
def Action.Due : Action W P → Prop
  | .malloc _ | .spurious _ => False
  | _ => True

def Action.isMalloc : Action W P → Bool
  | .malloc _ => true
  | _ => false

/-- The steps that a worker has before it, if it finds no further task. -/
def WorkerPc.left : WorkerPc → ℕ
  | .exited => 0
  | .lock | .woken => 1
  | .wait | .running => 2
  | .call => 3

/-- A node on the way to the queue brings the three steps of the worker that takes it. -/
def AddPc.left : AddPc → ℕ
  | .outside => 0
  | .pushed => 1
  | .filled _ => 5

def ReleasePc.left (W : ℕ) : ReleasePc → ℕ
  | .outside => maxWorker W + 3
  | .stopped => maxWorker W + 2
  | .joining i => maxWorker W - i + 1
  | .released => 0

def workersLeft (s : State F A W P) : ℕ := ∑ w, (s.workers w).pc.left

def addingLeft (s : State F A W P) : ℕ := ∑ c, (s.adding c).left

/-- The steps that are left, at most, while the queue is `l`. -/
def State.left (s : State F A W P) (l : List Addr) : ℕ :=
  workersLeft s + addingLeft s + 3 * l.length + s.release.left W

theorem left_setWorker :
    (s.setWorker w k).left l + (s.workers w).pc.left = s.left l + k.pc.left := by
  have hsum : workersLeft (s.setWorker w k) + (s.workers w).pc.left =
      workersLeft s + k.pc.left := Family.sum_update (m := fun k : Worker => k.pc.left)
  change workersLeft (s.setWorker w k) + addingLeft s + 3 * l.length + s.release.left W + _ = _
  unfold State.left
  omega

theorem left_setAdding : (s.setAdding c x).left l + (s.adding c).left = s.left l + x.left := by
  have hsum : addingLeft (s.setAdding c x) + (s.adding c).left = addingLeft s + x.left :=
    Family.sum_update (m := AddPc.left)
  change workersLeft s + addingLeft (s.setAdding c x) + 3 * l.length + s.release.left W + _ = _
  unfold State.left
  omega

theorem left_release {r : ReleasePc} :
    ({ s with release := r }).left l + s.release.left W = s.left l + r.left W := by
  change workersLeft s + addingLeft s + 3 * l.length + r.left W + _ = _
  unfold State.left
  omega

theorem left_append {z : Addr} : s.left (l ++ [z]) = s.left l + 3 := by
  unfold State.left
  rw [List.length_append, List.length_singleton]
  omega

theorem left_wake_pc : ((s.wake V).workers w).pc.left ≤ (s.workers w).pc.left := by
  rcases wake_pc (s := s) (w := w) (V := V) with hp | ⟨hp, hp'⟩
  · rw [hp]
  · rw [hp, hp']
    decide

theorem left_wake : (s.wake V).left l ≤ s.left l := by
  have hsum : workersLeft (s.wake V) ≤ workersLeft s := Finset.sum_le_sum fun _ _ => left_wake_pc
  change workersLeft (s.wake V) + addingLeft s + 3 * l.length + s.release.left W ≤ _
  unfold State.left
  omega

theorem left_wake_lt (hb : s.Blocked w) (hw : w ∈ V) : (s.wake V).left l < s.left l := by
  have hp : ((s.wake V).workers w).pc = .woken := by
    rcases wake_pc (s := s) (w := w) (V := V) with hp | ⟨-, hp⟩
    · exact absurd hw (blocked_of_wake (hp.trans hb)).2
    · exact hp
  have hsum : workersLeft (s.wake V) < workersLeft s := by
    refine Finset.sum_lt_sum (fun _ _ => left_wake_pc) ⟨w, Finset.mem_univ w, ?_⟩
    rw [hp, show (s.workers w).pc = .wait from hb]
    decide
  change workersLeft (s.wake V) + addingLeft s + 3 * l.length + s.release.left W < _
  unfold State.left
  omega

/-- With `stop` set the worker either takes a task from the queue or leaves. -/
theorem left_test (hl : s.pool.Queued l) (hstop : s.pool.stop = true)
    (hw : (s.workers w).pc = .lock ∨ (s.workers w).pc = .woken) :
    ∃ l', (threadPoolItem s.pool (s.workers w)).1.Queued l' ∧
      (s.setWorker w (threadPoolItem s.pool (s.workers w)).2).left l' < s.left l := by
  have hone : (s.workers w).pc.left = 1 := by rcases hw with hw | hw <;> rw [hw] <;> rfl
  rcases threadPoolItem_cases hl (s.workers w) with ⟨-, hgo, -⟩ | ⟨-, -, he⟩ |
    ⟨l', z, p', rfl, he, hq, -, -, -⟩
  · simp [hstop] at hgo
  · refine ⟨l, he ▸ hl, ?_⟩
    have hsum := left_setWorker (s := s) (w := w) (k := { s.workers w with pc := .exited }) (l := l)
    rw [hone] at hsum
    rw [he]
    change _ = _ + 0 at hsum
    change (s.setWorker w { s.workers w with pc := .exited }).left l < _
    omega
  · refine ⟨l', he ▸ hq, ?_⟩
    have hsum := left_setWorker (s := s) (w := w) (k := ⟨.call, some z⟩) (l := l')
    rw [hone] at hsum
    rw [he, left_append]
    change _ = _ + 3 at hsum
    change (s.setWorker w ⟨.call, some z⟩).left l' < _
    omega

/-- After `stop` every step is one of finitely many, but for those that a new task brings. -/
theorem left_step (hs : Step s act t) (hu : Useful s act) (hl : Ledger s l)
    (hstop : s.pool.stop = true) (hr : s.release ≠ .outside) :
    ∃ l', t.pool.Queued l' ∧ t.left l' < s.left l + if act.isMalloc then 6 else 0 := by
  cases hs with
  | @malloc c task f y hm hc hf =>
    refine ⟨l, Pool.queued_fill hl.queued hf, ?_⟩
    have hsum := left_setAdding (s := s) (c := c) (x := .filled task) (l := l)
    rw [hc] at hsum
    change _ + 0 = _ + 5 at hsum
    change (s.setAdding c (.filled task)).left l < _ + 6
    omega
  | @push c task hc =>
    obtain ⟨f, y, hblank⟩ := hl.blank c task hc
    refine ⟨l ++ [task], Pool.queued_addTask hl.queued (hl.notMem_of_filled hc) hblank, ?_⟩
    have hsum := left_setAdding (s := s) (c := c) (x := .pushed) (l := l)
    rw [hc] at hsum
    change _ + 5 = _ + 1 at hsum
    rw [left_append]
    change (s.setAdding c .pushed).left l + 3 < _ + 0
    omega
  | @signal c V hc hws =>
    refine ⟨l, hl.queued, ?_⟩
    have hsum := left_setAdding (s := s) (c := c) (x := .outside) (l := l)
    have hwake := left_wake (s := s.setAdding c .outside) (V := V) (l := l)
    rw [hc] at hsum
    change _ + 1 = _ + 0 at hsum
    change _ < _ + 0
    omega
  | @spurious w => exact ⟨l, hl.queued, left_wake_lt (hu w rfl) (Finset.mem_singleton_self w)⟩
  | test hw => exact left_test hl.queued hstop hw
  | @skip w hw ht =>
    refine ⟨l, hl.queued, ?_⟩
    have hsum := left_setWorker (s := s) (w := w) (k := ⟨.lock, none⟩) (l := l)
    rw [hw] at hsum
    change _ + 3 = _ + 1 at hsum
    change _ < _ + 0
    omega
  | @call w task hw ht =>
    refine ⟨l, Pool.queued_setPrev hl.queued (hl.of_holds ⟨Or.inl hw, ht⟩).2, ?_⟩
    have hsum := left_setWorker (s := s) (w := w) (k := ⟨.running, some task⟩) (l := l)
    rw [hw] at hsum
    change _ + 3 = _ + 2 at hsum
    change (s.setWorker w ⟨.running, some task⟩).left l < _ + 0
    omega
  | @finish w task hw hc ht =>
    refine ⟨l, hl.queued, ?_⟩
    have hsum := left_setWorker (s := s) (w := w) (k := ⟨.lock, some task⟩) (l := l)
    rw [hw] at hsum
    change _ + 2 = _ + 1 at hsum
    change (s.setWorker w ⟨.lock, some task⟩).left l < _ + 0
    omega
  | setStop hr' => exact absurd hr' hr
  | broadcast hr =>
    refine ⟨l, hl.queued, ?_⟩
    have hwake := left_wake (s := s) (V := Finset.univ) (l := l)
    have hsum := left_release (s := s.wake Finset.univ) (r := .joining 0) (l := l)
    rw [show (s.wake Finset.univ).release = .stopped from hr] at hsum
    change _ + (maxWorker W + 2) = _ + (maxWorker W - 0 + 1) at hsum
    dsimp only [Action.isMalloc] at hsum ⊢
    omega
  | @join i hr hi w hw hx =>
    refine ⟨l, hl.queued, ?_⟩
    have hsum := left_release (s := s) (r := .joining (i + 1)) (l := l)
    rw [hr] at hsum
    change _ + (maxWorker W - i + 1) = _ + (maxWorker W - (i + 1) + 1) at hsum
    change _ < _ + 0
    omega
  | @destroy i hr hi =>
    refine ⟨l, hl.queued, ?_⟩
    have hsum := left_release (s := s) (r := .released) (l := l)
    rw [hr] at hsum
    change _ + (maxWorker W - i + 1) = _ + 0 at hsum
    change _ < _ + 0
    omega

/-- A task that runs is the worker's `thread_task`. -/
def InHand (s : State F A W P) : Prop :=
  ∀ w, (s.workers w).pc = .running → ∃ task, (s.workers w).threadTask = some task

theorem inHand_setWorker (h : InHand s) (hk : k.pc = .running → ∃ task, k.threadTask = some task) :
    InHand (s.setWorker w k) := by
  intro v hv
  by_cases he : v = w
  · subst he
    simp only [State.setWorker, Function.update_self] at hv ⊢
    exact hk hv
  · simp only [State.setWorker, Function.update_of_ne he] at hv ⊢
    exact h v hv

theorem inHand_wake (h : InHand s) : InHand (s.wake V) := by
  intro v hv
  rw [wake_threadTask]
  rcases wake_pc (s := s) (w := v) (V := V) with hp | ⟨-, hp⟩
  · exact h v (hp ▸ hv)
  · simp [hp] at hv

theorem threadPoolItem_running {p : Pool F A} : (threadPoolItem p k).2.pc ≠ .running := by
  unfold threadPoolItem
  repeat' split
  all_goals simp

theorem inHand_step (hs : Step s act t) (h : InHand s) : InHand t := by
  cases hs with
  | malloc | push | setStop | join | destroy => exact h
  | signal | spurious | broadcast => exact inHand_wake h
  | test => exact inHand_setWorker h fun hr => absurd hr threadPoolItem_running
  | skip => exact inHand_setWorker h fun hr => by simp at hr
  | call => exact inHand_setWorker (s := s) h fun _ => ⟨_, rfl⟩
  | finish => exact inHand_setWorker (s := s) h fun _ => ⟨_, rfl⟩

theorem inHand_initial (h : Initial s) : InHand s := by
  intro w hw
  simp [h.2.1] at hw

/-- A worker that has not left goes on, once no one sleeps any more. -/
theorem worker_goes_on (hin : InHand s) (hb : ¬ s.Blocked w) (hx : (s.workers w).pc ≠ .exited) :
    ∃ act t, act.Due ∧ Step s act t := by
  cases hp : (s.workers w).pc with
  | lock => exact ⟨.test w, _, trivial, .test (.inl hp)⟩
  | woken => exact ⟨.test w, _, trivial, .test (.inr hp)⟩
  | wait => exact absurd hp hb
  | call =>
    cases ht : (s.workers w).threadTask with
    | none => exact ⟨.call w, _, trivial, .skip hp ht⟩
    | some task => exact ⟨.call w, _, trivial, .call hp ht⟩
  | running =>
    obtain ⟨task, ht⟩ := hin w hp
    cases hc : s.adding (.inr w) with
    | outside => exact ⟨.finish w, _, trivial, .finish hp hc ht⟩
    | filled task => exact ⟨.push (.inr w), _, trivial, .push hc⟩
    | pushed =>
      refine ⟨.signal (.inr w), _, trivial, .signal Finset.univ hc ?_⟩
      rintro ⟨v, hv⟩
      exact ⟨v, Finset.mem_univ v, hv⟩
  | exited => exact absurd hp hx

/-- The loop of joins never waits for a worker that cannot go on. -/
theorem release_goes_on (ha : Awake s) (hin : InHand s) (hr : s.release ≠ .outside)
    (hd : s.release ≠ .released) : ∃ act t, act.Due ∧ Step s act t := by
  cases hp : s.release with
  | outside => exact absurd hp hr
  | stopped => exact ⟨.broadcast, _, trivial, .broadcast hp⟩
  | joining i =>
    by_cases hi : i < maxWorker W
    · have hw : i < W := hi.trans_le (Nat.mod_le W _)
      by_cases hx : (s.workers ⟨i, hw⟩).pc = .exited
      · exact ⟨.join, _, trivial, .join hp hi rfl hx⟩
      · exact worker_goes_on hin (ha.none_blocked (by simp [BroadcastDone, hp]) _) hx
    · exact ⟨.destroy, _, trivial, .destroy hp hi⟩
  | released => exact absurd hp hd

theorem release_step (hs : Step s act t) (h : s.release ≠ .outside) : t.release ≠ .outside := by
  cases hs <;> first | exact h | simp

/-- What is known from the store to `stop` on. -/
structure Stopping (s : State F A W P) (l : List Addr) : Prop where
  ledger : Ledger s l
  awake : Awake s
  inHand : InHand s
  called : s.release ≠ .outside

theorem stopping_reachable (h : (system F A W P).Reachable s) (hr : s.release ≠ .outside) :
    ∃ l, Stopping s l := by
  obtain ⟨l, hl⟩ := ledger_reachable h
  exact ⟨l, hl, System.reachable_invariant (fun _ => awake_initial) (fun _ _ _ => awake_step) h,
    System.reachable_invariant (fun _ => inHand_initial) (fun _ _ _ => inHand_step) h, hr⟩

theorem stopping_step (hs : Step s act t) (hu : Useful s act) (h : Stopping s l) :
    ∃ l', Stopping t l' ∧ t.left l' < s.left l + if act.isMalloc then 6 else 0 := by
  obtain ⟨l', hl'⟩ := ledger_step hs h.ledger
  obtain ⟨l'', hq, hlt⟩ := left_step hs hu h.ledger (h.awake.stopped h.called) h.called
  obtain rfl := queued_unique hq hl'.queued
  exact ⟨l'', ⟨hl', awake_step hs h.awake, inHand_step hs h.inHand, release_step hs h.called⟩, hlt⟩

/-- From the store to `stop` on, every run is finite but for the tasks that are still created, and
it can only stop when `release_thread_poll` has returned. -/
theorem release_returns (h : (system F A W P).Reachable s) (hr : s.release ≠ .outside) :
    ∃ n, ∀ xs t, ((system F A W P).restrict Useful).Run s xs t →
      xs.length ≤ n + 6 * xs.countP Action.isMalloc ∧
        ((∀ act u, act.Due → ¬ Step t act u) → t.release = .released) := by
  obtain ⟨l, hl⟩ := stopping_reachable h hr
  refine ⟨s.left l, fun xs t hrun => ?_⟩
  have hstep : ∀ s act t n, ((system F A W P).restrict Useful).Step s act t →
      (∃ l, Stopping s l ∧ s.left l = n) →
      ∃ m < n + (if act.isMalloc then 6 else 0), ∃ l, Stopping t l ∧ t.left l = m := by
    rintro s act t n ⟨hu, hs⟩ ⟨l, hl, rfl⟩
    obtain ⟨l', hl', hlt⟩ := stopping_step hs hu hl
    exact ⟨t.left l', hlt, l', hl', rfl⟩
  obtain ⟨m, hle, l', hl', -⟩ := System.run_countP Action.isMalloc 6 hstep hrun ⟨l, hl, rfl⟩
  refine ⟨Nat.le_of_add_right_le hle, fun hstuck => ?_⟩
  by_contra hd
  obtain ⟨act, u, hdue, hs⟩ := release_goes_on hl'.awake hl'.inHand hl'.called hd
  exact hstuck act u hdue hs

/-- The only worker sleeps when `stop` is set. -/
theorem release_returns_sleeping :
    ∃ s : State Unit Unit 1 1, (system Unit Unit 1 1).Reachable s ∧ s.Blocked 0 ∧
      s.release = .stopped ∧ ∃ n, ∀ xs t, ((system Unit Unit 1 1).restrict Useful).Run s xs t →
        xs.length ≤ n + 6 * xs.countP Action.isMalloc ∧
          ((∀ act u, act.Due → ¬ Step t act u) → t.release = .released) := by
  let s₀ : State Unit Unit 1 1 :=
    ⟨⟨fun _ => none, none, none, false⟩, fun _ => ⟨.lock, none⟩, fun _ => .outside, .outside, [],
      []⟩
  have hr : ∃ s, (system Unit Unit 1 1).Reachable s ∧ s.Blocked 0 ∧ s.release = .stopped := by
    refine ⟨_, ⟨s₀, _, ⟨rfl, fun _ => rfl, fun _ => rfl, rfl, rfl, rfl⟩,
      .stepL (.test (w := 0) (.inl rfl)) <| .stepL (.setStop rfl) .refl⟩, rfl, rfl⟩
  obtain ⟨s, hs, hb, hstop⟩ := hr
  exact ⟨s, hs, hb, hstop, release_returns hs (by simp [hstop])⟩

end UnixCodes.ThreadPool
