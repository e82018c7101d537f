import UnixCodes.Lib.History
import UnixCodes.ThreadPool.Ledger

/-! The order in which tasks are added and dequeued. `add_task` puts its node behind `queue_tail`
and `thread_pool_item` takes `queue_tail`. -/
namespace UnixCodes.ThreadPool

open Transition History

variable {F A : Type} {W P : ℕ} {s t : State F A W P} {act : Action W P} {l l' : List Addr}

/-- A pool with the critical sections that have changed its queue. -/
structure Observed (F A : Type) (W P : ℕ) where
  state : State F A W P
  history : List (Op Addr)

/-- What a step does to the queue. -/
def operation (s : State F A W P) : Action W P → Option (Op Addr)
  | .push c =>
    match s.adding c with
    | .filled task => some (.put task)
    | _ => none
  | .test w =>
    if (threadPoolItem s.pool (s.workers w)).2.pc = .call then s.pool.queueTail.map .take
    else none
  | _ => none

def observed (F A : Type) (W P : ℕ) : System (Observed F A W P) (Action W P) where
  Initial o := Initial o.state ∧ o.history = []
  Step o a o' :=
    Step o.state a o'.state ∧ o'.history = o.history ++ (operation o.state a).toList

variable {o o' : Observed F A W P}

/-- The queue is what the history has left, and the history has every added task. -/
structure Mirrors (o : Observed F A W P) (l : List Addr) : Prop where
  ledger : Ledger o.state l
  lifo : Lifo o.history l
  added : puts o.history = o.state.added

theorem mirrors_initial (h : (observed F A W P).Initial o) : Mirrors o [] := by
  obtain ⟨hi, hh⟩ := h
  refine ⟨ledger_initial hi, ?_, ?_⟩
  · rw [hh]
    exact .empty
  · rw [hh, hi.2.2.2.2.1]
    rfl

/-- The links determine the queue, so a ledger for one list is a ledger for no other. -/
theorem Ledger.unique (h : Ledger s l) (hq : s.pool.Queued l') : Ledger s l' := by
  obtain rfl := h.queued.linked.unique hq.linked
  exact h

/-- Steps that are no operation on the queue leave it as it is. -/
theorem queued_step (hs : Step s act t) (h : Ledger s l) (ho : operation s act = none) :
    t.pool.Queued l ∧ t.added = s.added := by
  cases hs with
  | malloc task f x _ _ hf => exact ⟨Pool.queued_fill h.queued hf, rfl⟩
  | push hc => simp [operation, hc] at ho
  | @test w hw =>
    refine ⟨?_, rfl⟩
    rcases threadPoolItem_cases h.queued (s.workers w) with ⟨-, -, he⟩ | ⟨-, -, he⟩ |
      ⟨l₁, z, p', rfl, he, -⟩
    · rw [he]
      exact h.queued
    · rw [he]
      exact h.queued
    · simp [operation, he, h.queued.linked.tail_eq] at ho
  | call hw ht =>
    have hholds : Holds _ (s.workers _) := ⟨Or.inl hw, ht⟩
    exact ⟨Pool.queued_setPrev h.queued (h.of_holds hholds).2, rfl⟩
  | setStop => exact ⟨Pool.queued_stop h.queued, rfl⟩
  | signal | spurious | skip | finish | broadcast | join | destroy => exact ⟨h.queued, rfl⟩

theorem mirrors_step (hs : (observed F A W P).Step o act o') (h : Mirrors o l) :
    ∃ l', Mirrors o' l' := by
  obtain ⟨s, hist⟩ := o
  obtain ⟨t, hist'⟩ := o'
  obtain ⟨hs, hh⟩ := hs
  obtain ⟨hl, hlifo, hadded⟩ := h
  dsimp only at hs hh hl hlifo hadded
  obtain ⟨l₀, hl₀⟩ := ledger_step hs hl
  cases ho : operation s act with
  | none =>
    obtain ⟨hq, ha⟩ := queued_step hs hl ho
    rw [ho, Option.toList_none, List.append_nil] at hh
    subst hh
    exact ⟨l, hl₀.unique hq, hlifo, hadded.trans ha.symm⟩
  | some op =>
    rw [ho, Option.toList_some] at hh
    subst hh
    cases hs with
    | @push c task hc =>
      obtain rfl : Op.put task = op := by simpa [operation, hc] using ho
      have hnew := ledger_push hl hc
      refine ⟨l ++ [task], hnew, .put hlifo ?_, ?_⟩
      · rw [hadded]
        exact List.count_eq_zero.mp (hl.not_added hc)
      · rw [puts_concat_put, hadded]
    | @test w hw =>
      rcases threadPoolItem_cases hl.queued (s.workers w) with ⟨-, -, he⟩ | ⟨-, -, he⟩ |
        ⟨l₁, z, p', rfl, he, hq, -⟩
      · simp [operation, he] at ho
      · simp [operation, he] at ho
      · obtain rfl : Op.take z = op := by
          simpa [operation, he, hl.queued.linked.tail_eq] using ho
        refine ⟨l₁, hl₀.unique ?_, .take hlifo, ?_⟩
        · rw [he]
          exact hq
        · rw [puts_concat_take]
          exact hadded
    | malloc | signal | spurious | skip | call | finish | setStop | broadcast | join | destroy =>
      simp [operation] at ho

theorem mirrors_reachable (h : (observed F A W P).Reachable o) : ∃ l, Mirrors o l := by
  apply System.reachable_invariant (P := fun o => ∃ l, Mirrors o l) ?_ ?_ h
  · intro o hi
    exact ⟨[], mirrors_initial hi⟩
  · rintro o a o' hs ⟨l, hl⟩
    exact mirrors_step hs hl

/-- Tasks are dequeued in the order in which they were added exactly in the runs in which no worker
dequeues while two tasks are queued. -/
theorem fifo_iff_oneQueued (h : (observed F A W P).Reachable o) :
    Fifo o.history ↔ Single o.history := by
  obtain ⟨l, hl⟩ := mirrors_reachable h
  exact hl.lifo.fifo_iff_single

theorem observe {hist : List (Op Addr)} (h : Step s act t) :
    (observed F A W P).Step ⟨s, hist⟩ act ⟨t, hist ++ (operation s act).toList⟩ := ⟨h, rfl⟩

/-- Two tasks are added before the worker comes; it takes the second one. -/
theorem twoAdds_run : ∃ o : Observed Unit Unit 1 1, (observed Unit Unit 1 1).Reachable o ∧
    o.history = [.put 0, .put 1, .take 1] := by
  let s₀ : State Unit Unit 1 1 :=
    ⟨⟨fun _ => none, none, none, false⟩, fun _ => ⟨.lock, none⟩, fun _ => .outside, .outside, [],
      []⟩
  refine ⟨_, ⟨⟨s₀, []⟩, _, ⟨⟨rfl, fun _ => rfl, fun _ => rfl, rfl, rfl, rfl⟩, rfl⟩,
    .stepL (observe (.malloc (c := .inl 0) 0 () () trivial rfl rfl)) <|
    .stepL (observe (.push (c := .inl 0) rfl)) <|
    .stepL (observe (.signal (c := .inl 0) ∅ rfl (wakes_of_none_blocked fun 0 => nofun))) <|
    .stepL (observe (.malloc (c := .inl 0) 1 () () trivial rfl rfl)) <|
    .stepL (observe (.push (c := .inl 0) rfl)) <|
    .stepL (observe (.test (w := 0) (.inl rfl))) .refl⟩, rfl⟩

theorem fifo_iff_oneQueued_twoAdds : ∃ o : Observed Unit Unit 1 1,
    (observed Unit Unit 1 1).Reachable o ∧ o.history = [.put 0, .put 1, .take 1] ∧
      (Fifo o.history ↔ Single o.history) := by
  obtain ⟨o, ho, hh⟩ := twoAdds_run
  exact ⟨o, ho, hh, fifo_iff_oneQueued ho⟩

/-- The task that was added first is still queued when the second one is dequeued. -/
theorem twoAdds_overtakes : ¬ ∀ o : Observed Unit Unit 1 1,
    (observed Unit Unit 1 1).Reachable o → Fifo o.history := by
  intro hall
  obtain ⟨o, ho, hh⟩ := twoAdds_run
  have htaken := hall o ho 0 1 (by simp [hh]) (by simp [hh])
  have hmem := htaken.subset List.mem_cons_self
  simp [hh] at hmem

end UnixCodes.ThreadPool
