import UnixCodes.ThreadPool.Ledger

/-! No wake-up is lost: a queued task never waits for a busy worker while another one sleeps. -/
namespace UnixCodes.ThreadPool

open Transition

variable {F A : Type} {W P : ℕ} {s t : State F A W P} {act : Action W P} {l l' : List Addr}
  {w : Fin W} {c : Caller W P} {k : Worker} {x : AddPc} {V : Finset (Fin W)}

/-- Holding no task and about to test the `while` condition. -/
def Ready (k : Worker) : Prop := k.pc = .lock ∨ k.pc = .woken

instance : DecidablePred Ready := fun k =>
  inferInstanceAs (Decidable (k.pc = .lock ∨ k.pc = .woken))

def ready (s : State F A W P) : ℕ := Family.count Ready s.workers

/-- Callers of `add_task` that have pushed and not yet signalled. -/
def unsignalled (s : State F A W P) : ℕ := Family.count (fun x => x = AddPc.pushed) s.adding

def BroadcastDone (s : State F A W P) : Prop := s.release ≠ .outside ∧ s.release ≠ .stopped

/-- A sleeping worker means that somebody is on the way to every queued task. -/
def WorkConserving (s : State F A W P) : Prop :=
  ∀ l, s.pool.Queued l → (∃ w, s.Blocked w) → l.length ≤ ready s + unsignalled s

theorem queued_unique {p : Pool F A} (h : p.Queued l) (h' : p.Queued l') : l = l' :=
  h.linked.unique h'.linked

theorem ready_setWorker :
    ready (s.setWorker w k) + (if Ready (s.workers w) then 1 else 0) =
      ready s + (if Ready k then 1 else 0) := Family.count_update

theorem unsignalled_setAdding :
    unsignalled (s.setAdding c x) + (if s.adding c = .pushed then 1 else 0) =
      unsignalled s + (if x = .pushed then 1 else 0) :=
  Family.count_update (p := fun x => x = AddPc.pushed)

theorem ready_wake (h : Ready (s.workers w)) : Ready ((s.wake V).workers w) := by
  rcases wake_pc (s := s) (w := w) (V := V) with hp | ⟨-, hp⟩
  · simpa [Ready, hp] using h
  · exact Or.inr hp

theorem ready_le_wake : ready s ≤ ready (s.wake V) := Family.count_le fun _ => ready_wake

/-- A wake-up that meets a blocked worker makes one more worker ready. -/
theorem ready_lt_wake (hw : w ∈ V) (hb : s.Blocked w) : ready s < ready (s.wake V) := by
  apply Family.count_lt (fun _ => ready_wake) (i := w)
  · simp [Ready, show (s.workers w).pc = .wait from hb]
  · simp [Ready, State.wake, hw, show (s.workers w).pc = .wait from hb]

theorem blocked_of_wake (h : (s.wake V).Blocked w) : s.Blocked w ∧ w ∉ V := by
  by_cases hc : w ∈ V ∧ (s.workers w).pc = .wait
  · simp [State.Blocked, State.wake, hc] at h
  · simp only [State.Blocked, State.wake, if_neg hc] at h
    exact ⟨h, fun hw => hc ⟨hw, h⟩⟩

/-- A worker that is not put to sleep blocks nobody. -/
theorem blocked_of_setWorker {v : Fin W} (hk : k.pc ≠ .wait)
    (h : (s.setWorker w k).Blocked v) : s.Blocked v := by
  by_cases he : v = w
  · subst he
    simp [State.Blocked, State.setWorker, hk] at h
  · simpa [State.Blocked, State.setWorker, he] using h

theorem blocked_setWorker (hk : k.pc ≠ .wait) (h : ∃ v, (s.setWorker w k).Blocked v) :
    ∃ v, s.Blocked v := by
  obtain ⟨v, hv⟩ := h
  exact ⟨v, blocked_of_setWorker hk hv⟩

theorem workConserving_initial (h : Initial s) : WorkConserving s := by
  rintro l - ⟨w, hw⟩
  simp [State.Blocked, h.2.1] at hw

theorem workConserving_test (hl : Ledger s l)
    (hw : (s.workers w).pc = .lock ∨ (s.workers w).pc = .woken) (hi : WorkConserving s) :
    WorkConserving { s.setWorker w (threadPoolItem s.pool (s.workers w)).2 with
      pool := (threadPoolItem s.pool (s.workers w)).1 } := by
  intro l' hq hb
  rcases threadPoolItem_cases hl.queued (s.workers w) with ⟨rfl, -, he⟩ | ⟨rfl, -, he⟩ |
    ⟨l₁, z, p', rfl, he, hq', -, -, -⟩
  · simp only [he] at hq
    simp [← queued_unique hl.queued hq]
  · simp only [he] at hq
    simp [← queued_unique hl.queued hq]
  · simp only [he] at hq hb ⊢
    obtain rfl := queued_unique hq' hq
    have hlen := hi _ hl.queued (blocked_setWorker (by simp) hb)
    have hr := ready_setWorker (s := s) (w := w) (k := ⟨.call, some z⟩)
    simp only [Ready, hw, if_true, reduceCtorEq, or_self, if_false, Nat.add_zero] at hr
    change l₁.length ≤ ready (s.setWorker w ⟨.call, some z⟩) + unsignalled s
    simp only [List.length_append, List.length_singleton] at hlen
    omega

/-- A step that leaves the queue alone, blocks nobody and takes nobody off the way. -/
theorem WorkConserving.mono (hi : WorkConserving s) (hl : Ledger s l) (hq : t.pool.Queued l)
    (hb : (∃ w, t.Blocked w) → ∃ w, s.Blocked w) (hr : ready s ≤ ready t)
    (hu : unsignalled s ≤ unsignalled t) : WorkConserving t := by
  intro l' hq' hb'
  obtain rfl := queued_unique hq hq'
  have := hi l hl.queued (hb hb')
  omega

theorem ready_le_setWorker (hw : ¬ Ready (s.workers w)) : ready s ≤ ready (s.setWorker w k) := by
  have := ready_setWorker (s := s) (w := w) (k := k)
  rw [if_neg hw] at this
  omega

theorem workConserving_step (hs : Step s act t) (hl : Ledger s l) (hi : WorkConserving s) :
    WorkConserving t := by
  cases hs with
  | @malloc c task f x hm hc hf =>
    have hu := unsignalled_setAdding (s := s) (c := c) (x := .filled task)
    simp only [hc, reduceCtorEq, if_false, Nat.add_zero] at hu
    exact hi.mono hl (Pool.queued_fill hl.queued hf) id le_rfl hu.ge
  | @push c task hc =>
    intro l' hq hb
    obtain ⟨f, x, hblank⟩ := hl.blank c task hc
    obtain rfl := queued_unique
      (Pool.queued_addTask hl.queued (hl.notMem_of_filled hc) hblank) hq
    have hu := unsignalled_setAdding (s := s) (c := c) (x := .pushed)
    simp only [hc, reduceCtorEq, if_false, if_true, Nat.add_zero] at hu
    have hlen := hi l hl.queued hb
    change (l ++ [task]).length ≤ ready s + unsignalled (s.setAdding c .pushed)
    simp only [List.length_append, List.length_singleton]
    omega
  | @signal c V hc hws =>
    intro l' hq hb
    obtain rfl := queued_unique hl.queued hq
    obtain ⟨v, hv⟩ := hb
    have hblocked : ∃ w, s.Blocked w := ⟨v, (blocked_of_wake hv).1⟩
    obtain ⟨w, hw, hwb⟩ := hws hblocked
    have hlen := hi l hl.queued hblocked
    have hlt := ready_lt_wake (s := s.setAdding c .outside) hw hwb
    have hu := unsignalled_setAdding (s := s) (c := c) (x := .outside)
    simp only [hc, reduceCtorEq, if_false, if_true, Nat.add_zero] at hu
    change ready s < ready ((s.setAdding c .outside).wake V) at hlt
    change l.length ≤ ready ((s.setAdding c .outside).wake V) + unsignalled (s.setAdding c .outside)
    omega
  | spurious =>
    refine hi.mono hl hl.queued ?_ ready_le_wake le_rfl
    rintro ⟨w, hw⟩
    exact ⟨w, (blocked_of_wake hw).1⟩
  | test hw => exact workConserving_test hl hw hi
  | skip hw ht =>
    exact hi.mono hl hl.queued (blocked_setWorker (by simp))
      (ready_le_setWorker (by simp [Ready, hw])) le_rfl
  | @call w task hw ht =>
    have hholds : Holds task (s.workers w) := ⟨Or.inl hw, ht⟩
    exact hi.mono hl (Pool.queued_setPrev hl.queued (hl.of_holds hholds).2)
      (blocked_setWorker (s := s) (by simp))
      (ready_le_setWorker (s := s) (by simp [Ready, hw])) le_rfl
  | finish hw hc ht =>
    exact hi.mono hl hl.queued (blocked_setWorker (s := s) (by simp))
      (ready_le_setWorker (s := s) (by simp [Ready, hw])) le_rfl
  | setStop _ => exact hi.mono hl (Pool.queued_stop hl.queued) id le_rfl le_rfl
  | broadcast _ =>
    rintro l' - ⟨w, hw⟩
    exact absurd (Finset.mem_univ w) (blocked_of_wake (s := s) hw).2
  | join _ _ _ _ => exact hi
  | destroy _ _ => exact hi

/-- Once `stop` is set the `while` test fails, so nobody goes to sleep any more. -/
structure Awake (s : State F A W P) : Prop where
  stopped : s.release ≠ .outside → s.pool.stop = true
  none_blocked : BroadcastDone s → ∀ w, ¬ s.Blocked w

theorem awake_initial (h : Initial s) : Awake s := by
  obtain ⟨-, hw, -, hr, -, -⟩ := h
  exact ⟨fun hne => absurd hr hne, fun hd => absurd hr hd.1⟩

theorem threadPoolItem_wait {p : Pool F A} (h : p.stop = true) :
    (threadPoolItem p k).2.pc ≠ .wait := by
  unfold threadPoolItem
  rw [if_neg (by simp [h])]
  split <;> simp

theorem awake_step (hs : Step s act t) (h : Awake s) : Awake t := by
  have keep {t : State F A W P} (hr : t.release = s.release) (hst : t.pool.stop = s.pool.stop)
      (hb : BroadcastDone s → ∀ w, t.Blocked w → s.Blocked w) : Awake t := by
    constructor
    · intro hne
      rw [hst]
      exact h.stopped (hr ▸ hne)
    · intro hd w hw
      have hd' : BroadcastDone s := by simpa [BroadcastDone, hr] using hd
      exact h.none_blocked hd' w (hb hd' w hw)
  cases hs with
  | malloc => exact keep rfl rfl fun _ _ hw => hw
  | push => exact keep rfl Pool.addTask_stop fun _ _ hw => hw
  | signal => exact keep rfl rfl fun _ _ hw => (blocked_of_wake hw).1
  | spurious => exact keep rfl rfl fun _ _ hw => (blocked_of_wake hw).1
  | @test w hw =>
    refine keep rfl threadPoolItem_stop ?_
    intro hd v hv
    exact blocked_of_setWorker (s := s) (threadPoolItem_wait (h.stopped hd.1)) hv
  | skip | call | finish =>
    refine keep rfl rfl ?_
    intro _ v hv
    exact blocked_of_setWorker (s := s) (by simp) hv
  | setStop _ => exact ⟨fun _ => rfl, fun hd => absurd rfl hd.2⟩
  | broadcast hr =>
    refine ⟨fun _ => h.stopped (by simp [hr]), ?_⟩
    intro _ w hw
    exact absurd (Finset.mem_univ w) (blocked_of_wake (s := s) hw).2
  | join hr _ _ _ =>
    exact ⟨fun _ => h.stopped (by simp [hr]), fun _ => h.none_blocked (by simp [BroadcastDone, hr])⟩
  | destroy hr _ =>
    exact ⟨fun _ => h.stopped (by simp [hr]), fun _ => h.none_blocked (by simp [BroadcastDone, hr])⟩

/-- Work conservation in every reachable state, and no sleeper after the broadcast. -/
theorem no_lost_wakeup (h : (system F A W P).Reachable s) :
    (∃ l, s.pool.Queued l ∧
      ((∃ w, s.Blocked w) → l.length ≤ ready s + unsignalled s)) ∧
    (BroadcastDone s → ∀ w, ¬ s.Blocked w) := by
  have ha : Awake s :=
    System.reachable_invariant (fun _ => awake_initial) (fun _ _ _ => awake_step) h
  have hc : WorkConserving s := by
    apply System.reachable_induction (fun _ => workConserving_initial) ?_ h
    intro s a t hr hs hc
    obtain ⟨l, hl⟩ := ledger_reachable hr
    exact workConserving_step hs hl hc
  obtain ⟨l, hl⟩ := ledger_reachable h
  exact ⟨⟨l, hl.queued, hc l hl.queued⟩, ha.none_blocked⟩

/-- The only worker sleeps while a producer has pushed and not yet signalled. -/
theorem no_lost_wakeup_beforeSignal :
    ∃ (s : State Unit Unit 1 1) (l : List Addr), (system Unit Unit 1 1).Reachable s ∧
      s.Blocked 0 ∧ s.pool.Queued l ∧ l.length ≤ ready s + unsignalled s ∧ s.added = [0] := by
  let s₀ : State Unit Unit 1 1 :=
    ⟨⟨fun _ => none, none, none, false⟩, fun _ => ⟨.lock, none⟩, fun _ => .outside, .outside, [],
      []⟩
  have hr : ∃ s, (system Unit Unit 1 1).Reachable s ∧ s.Blocked 0 ∧ s.added = [0] := by
    refine ⟨_, ⟨s₀, _, ⟨rfl, fun _ => rfl, fun _ => rfl, rfl, rfl, rfl⟩,
      .stepL (.test (w := 0) (.inl rfl)) <|
      .stepL (.malloc (c := .inl 0) 0 () () trivial rfl rfl) <|
      .stepL (.push (c := .inl 0) rfl) .refl⟩, rfl, rfl⟩
  obtain ⟨s, hs, hb, ha⟩ := hr
  obtain ⟨l, hq, hlen⟩ := (no_lost_wakeup hs).1
  exact ⟨s, l, hs, hb, hq, hlen ⟨0, hb⟩, ha⟩

end UnixCodes.ThreadPool
