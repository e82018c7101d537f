import UnixCodes.ThreadPool.Order

/-! What the pointers of the pool describe in every reachable state, and how one push and one
dequeue change it. -/
namespace UnixCodes.ThreadPool

open History LinkedList

variable {F A : Type} {W P : ℕ} {p p' : Pool F A} {l : List Addr} {a task tail z : Addr}
  {k : Worker} {o : Observed F A W P} {c : Option Addr}

/-- `queue` and `next` describe `l`, and `queue_tail` and `prev` its reverse. -/
structure Represents (p : Pool F A) (l : List Addr) : Prop where
  empty : p.queue = none ↔ p.queueTail = none
  forward : Segment p.next p.queue l none
  backward : Segment p.prev p.queueTail l.reverse none
  nodup : l.Nodup
  head : ∀ a, p.queue = some a → p.prev a = none
  tail : ∀ z, p.queueTail = some z → p.next z = none

/-- `task` has joined the list at its tail. -/
structure Extends (p p' : Pool F A) (l : List Addr) (task : Addr) : Prop where
  list : Represents p' (l ++ [task])
  kept : ∀ a ∈ l, p'.mem a =
    if p.queueTail = some a then (p.mem a).map fun k => { k with next := some task } else p.mem a

/-- `z` has left the list at its tail, and nothing in it points to `z`. -/
structure Removes (p p' : Pool F A) (l : List Addr) (z : Addr) : Prop where
  list : Represents p' l
  kept : ∀ a ∈ l, p'.mem a =
    if p'.queueTail = some a then (p.mem a).map fun k => { k with next := none } else p.mem a
  unreferenced : p'.queue ≠ some z ∧ p'.queueTail ≠ some z ∧
    ∀ a ∈ l, p'.next a ≠ some z ∧ p'.prev a ≠ some z

theorem represents_of_queued (h : p.Queued l) : Represents p l where
  empty := h.linked.head_eq_none.trans h.linked.tail_eq_none.symm
  forward := h.linked.forward
  backward := h.linked.backward
  nodup := h.nodup
  head _ ha := h.linked.prev_head ha
  tail _ hz := h.linked.next_tail hz

theorem addTask_kept (hne : a ≠ task) : (p.addTask task).mem a =
    if p.queueTail = some a then (p.mem a).map fun k => { k with next := some task }
    else p.mem a := by
  unfold Pool.addTask
  cases hq : p.queueTail with
  | none => rfl
  | some tail =>
    by_cases he : a = tail
    · subst he
      simp [Pool.setNext, Pool.setPrev_of_ne hne]
    · simp [Pool.setNext_of_ne he, Pool.setPrev_of_ne hne, Ne.symm he]

theorem dequeue_kept : (p.dequeue c).1.mem a =
    if (p.dequeue c).1.queueTail = some a then (p.mem a).map fun k => { k with next := none }
    else p.mem a := by
  unfold Pool.dequeue
  cases hq : p.queueTail with
  | none => simp [hq]
  | some tail =>
    cases hy : p.prev tail with
    | none => simp [hy]
    | some y =>
      by_cases he : a = y
      · subst he
        simp [hy, Pool.setNext]
      · simp [hy, Pool.setNext_of_ne he, Ne.symm he]

/-- A worker that finds a task dequeues. -/
theorem threadPoolItem_some (hq : p.queue ≠ none) :
    threadPoolItem p k = ((p.dequeue k.threadTask).1, ⟨.call, (p.dequeue k.threadTask).2⟩) := by
  simp [threadPoolItem, hq]

/-- A worker that finds none waits or exits. -/
theorem threadPoolItem_none (hq : p.queue = none) :
    (threadPoolItem p k).1 = p ∧ (threadPoolItem p k).2.pc ≠ .call := by
  cases hs : p.stop <;> simp [threadPoolItem, hq, hs]

theorem removes_of_queued (h : p.Queued (l ++ [z])) : Removes p (p.dequeue c).1 l z := by
  obtain ⟨-, hqueued, -⟩ := Pool.dequeue_spec (o := c) h
  have hz : z ∉ l := notMem_of_nodup_concat h.nodup
  exact ⟨represents_of_queued hqueued, fun _ _ => dequeue_kept, hqueued.linked.unreferenced hz⟩

/-- In every interleaving the pointers describe the tasks that have been added and not yet
dequeued; a push extends the list at its tail, and a worker that enters its critical section with a
task queued takes the tail off, and otherwise leaves the queue alone. -/
theorem queue_represents (h : (observed F A W P).Reachable o) :
    ∃ l, Represents o.state.pool l ∧
      (∀ a, a ∈ l ↔ a ∈ puts o.history ∧ a ∉ takes o.history) ∧
      (∀ c task o', o.state.adding c = .filled task → (observed F A W P).Step o (.push c) o' →
        o'.history = o.history ++ [.put task] ∧ Extends o.state.pool o'.state.pool l task) ∧
      ∀ w o', (observed F A W P).Step o (.test w) o' →
        (o.state.pool.queue = none → o'.state.pool = o.state.pool ∧ o'.history = o.history) ∧
        (o.state.pool.queue ≠ none → (o'.state.workers w).pc = .call ∧
          ∃ l' z, l = l' ++ [z] ∧ o'.history = o.history ++ [.take z] ∧
            (o'.state.workers w).threadTask = some z ∧
            Removes o.state.pool o'.state.pool l' z) := by
  obtain ⟨l, hledger, hlifo, -⟩ := mirrors_reachable h
  have hqueued := hledger.queued
  have hholds := hlifo.holds
  refine ⟨l, represents_of_queued hqueued, ?_, ?_, ?_⟩
  · intro a
    rw [hholds.mem a]
    constructor
    · intro ha
      exact ⟨.inr ha, hholds.fresh a ha⟩
    · rintro ⟨htaken | ha, hnot⟩
      · exact absurd htaken hnot
      · exact ha
  · rintro c task ⟨t, history⟩ hc ⟨hs, hhistory⟩
    dsimp only at hs hhistory
    cases hs with
    | @push _ task' hc' =>
      obtain rfl : task = task' := AddPc.filled.inj (hc.symm.trans hc')
      obtain ⟨f, x, hblank⟩ := hledger.blank c task hc
      have hmem := hledger.notMem_of_filled hc
      refine ⟨?_, represents_of_queued (Pool.queued_addTask hqueued hmem hblank), ?_⟩
      · simpa [operation, hc] using hhistory
      · intro a ha
        apply addTask_kept
        rintro rfl
        exact hmem ha
  · rintro w ⟨t, history⟩ ⟨hs, hhistory⟩
    dsimp only at hs hhistory
    cases hs with
    | test hw =>
      refine ⟨fun hnone => ?_, fun hsome => ?_⟩
      · obtain ⟨hpool, hpc⟩ := threadPoolItem_none (k := o.state.workers w) hnone
        refine ⟨hpool, ?_⟩
        simpa [operation, hpc] using hhistory
      · have hitem := threadPoolItem_some (k := o.state.workers w) hsome
        simp only [State.setWorker, Function.update_self, hitem]
        refine ⟨trivial, ?_⟩
        rcases List.eq_nil_or_concat' l with rfl | ⟨l, z, rfl⟩
        · exact absurd (hqueued.linked.head_eq_none.mpr rfl) hsome
        · obtain ⟨hz, -⟩ := Pool.dequeue_spec (o := (o.state.workers w).threadTask) hqueued
          refine ⟨l, z, rfl, ?_, hz, removes_of_queued hqueued⟩
          simpa [operation, hitem, hqueued.linked.tail_eq] using hhistory

/-- Of two tasks the second one has been dequeued, and the first one is the list. -/
theorem queue_represents_twoAdds : ∃ (o : Observed Unit Unit 1 1) (l : List Addr),
    (observed Unit Unit 1 1).Reachable o ∧ o.history = [.put 0, .put 1, .take 1] ∧
      Represents o.state.pool l ∧ ∀ a, a ∈ l ↔ a = 0 := by
  obtain ⟨o, ho, hhistory⟩ := twoAdds_run
  obtain ⟨l, hl, hmem, -⟩ := queue_represents ho
  have hputs : puts o.history = [0, 1] := by rw [hhistory]; rfl
  have htakes : takes o.history = [1] := by rw [hhistory]; rfl
  refine ⟨o, l, ho, hhistory, hl, fun a => ?_⟩
  rw [hmem a, hputs, htakes, List.mem_pair, List.mem_singleton]
  constructor
  · rintro ⟨rfl | rfl, hne⟩
    · rfl
    · exact absurd rfl hne
  · rintro rfl
    exact ⟨.inl rfl, Nat.zero_ne_one⟩

end UnixCodes.ThreadPool
