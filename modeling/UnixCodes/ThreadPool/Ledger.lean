import UnixCodes.Lib.Family
import UnixCodes.ThreadPool.Queue

/-! Conservation of tasks: every node is in one place, in every interleaving. -/
namespace UnixCodes.ThreadPool

open Transition

variable {F A : Type} {W P : ℕ} {s t : State F A W P} {act : Action W P} {l : List Addr}
  {w : Fin W} {c : Caller W P} {k : Worker} {x : AddPc} {task task' : Addr}

/-- The worker has taken `task` and has not returned from it. A `thread_task` left over from an
earlier round does not count. -/
def Holds (task : Addr) (k : Worker) : Prop :=
  (k.pc = .call ∨ k.pc = .running) ∧ k.threadTask = some task

instance : DecidablePred (Holds task) := fun k =>
  inferInstanceAs (Decidable ((k.pc = .call ∨ k.pc = .running) ∧ k.threadTask = some task))

def held (s : State F A W P) (task : Addr) : ℕ := Family.count (Holds task) s.workers

/-- Threads with `task` in hand on the way to the lock of `add_task`. -/
def filling (s : State F A W P) (task : Addr) : ℕ :=
  Family.count (fun x => x = AddPc.filled task) s.adding

structure Ledger (s : State F A W P) (l : List Addr) : Prop where
  queued : s.pool.Queued l
  balance : ∀ task, l.count task + held s task + s.executed.count task = s.added.count task
  placed : ∀ task, filling s task + s.added.count task = if (s.pool.mem task).isSome then 1 else 0
  blank : ∀ c task, s.adding c = .filled task →
    ∃ f x, s.pool.mem task = some ⟨f, x, none, none⟩
  inTask : ∀ w, s.adding (.inr w) ≠ .outside → (s.workers w).pc = .running

theorem held_setWorker (task : Addr) :
    held (s.setWorker w k) task + (if Holds task (s.workers w) then 1 else 0) =
      held s task + (if Holds task k then 1 else 0) := Family.count_update

theorem filling_setAdding (task : Addr) :
    filling (s.setAdding c x) task + (if s.adding c = .filled task then 1 else 0) =
      filling s task + (if x = .filled task then 1 else 0) :=
  Family.count_update (p := fun x => x = AddPc.filled task)

theorem wake_pc {V : Finset (Fin W)} :
    ((s.wake V).workers w).pc = (s.workers w).pc ∨
      (s.workers w).pc = .wait ∧ ((s.wake V).workers w).pc = .woken := by
  simp only [State.wake]
  split
  · rename_i h
    exact Or.inr ⟨h.2, rfl⟩
  · exact Or.inl rfl

theorem wake_threadTask {V : Finset (Fin W)} :
    ((s.wake V).workers w).threadTask = (s.workers w).threadTask := by
  simp only [State.wake]
  split <;> rfl

theorem held_wake {V : Finset (Fin W)} (task : Addr) : held (s.wake V) task = held s task := by
  apply Family.count_congr
  intro w
  rcases wake_pc (s := s) (w := w) (V := V) with h | ⟨h, h'⟩
  · simp [Holds, h, wake_threadTask]
  · simp [Holds, h, h']

theorem Ledger.added_le_one (h : Ledger s l) (task : Addr) : s.added.count task ≤ 1 := by
  have := h.placed task
  split at this <;> omega

/-- A node on its way to the lock has not been added. -/
theorem Ledger.not_added (h : Ledger s l) (hc : s.adding c = .filled task) :
    s.added.count task = 0 := by
  have hpos : 0 < filling s task := Family.count_pos (i := c) hc
  have := h.placed task
  split at this <;> omega

theorem Ledger.notMem_of_filled (h : Ledger s l) (hc : s.adding c = .filled task) : task ∉ l := by
  have := h.balance task
  rw [h.not_added hc] at this
  exact List.count_eq_zero.mp (by omega)

/-- A task that a worker holds is in the ledger and off the queue. -/
theorem Ledger.of_holds (h : Ledger s l) (hw : Holds task (s.workers w)) :
    s.added.count task = 1 ∧ task ∉ l := by
  have hpos : 0 < held s task := Family.count_pos (i := w) hw
  have := h.balance task
  have := h.added_le_one task
  exact ⟨by omega, List.count_eq_zero.mp (by omega)⟩

theorem ledger_initial (h : Initial s) : Ledger s [] := by
  obtain ⟨hp, hw, hc, -, ha, he⟩ := h
  have hheld : ∀ task, held s task = 0 := by
    intro task
    apply Family.count_eq_zero.mpr
    intro w
    simp [Holds, hw]
  have hfill : ∀ task, filling s task = 0 := by
    intro task
    apply Family.count_eq_zero.mpr
    intro c
    simp [hc]
  exact ⟨hp ▸ Pool.queued_empty, by simp [hheld, ha, he], by simp [hfill, ha, hp],
    by simp [hc], by simp [hc]⟩

theorem ledger_malloc {f : F} {x : A} (h : Ledger s l) (hm : s.MayAdd c)
    (hc : s.adding c = .outside) (hf : s.pool.mem task = none) :
    Ledger { s.setAdding c (.filled task) with pool := s.pool.fill task f x } l := by
  have hplace := h.placed task
  simp only [hf, Option.isSome_none, Bool.false_eq_true, if_false] at hplace
  refine ⟨Pool.queued_fill h.queued hf, h.balance, ?_, ?_, ?_⟩
  · intro task'
    have hfill := filling_setAdding (s := s) (c := c) (x := .filled task) task'
    simp only [hc, reduceCtorEq, if_false] at hfill
    change filling (s.setAdding c (.filled task)) task' + s.added.count task' = _
    by_cases he : task' = task
    · subst he
      simp [Pool.fill] at hfill ⊢
      omega
    · have hne : ¬ task = task' := fun hne => he hne.symm
      have hold := h.placed task'
      simp [Pool.fill, he, hne] at hfill hold ⊢
      omega
  · intro c' task' hc'
    by_cases he : c' = c
    · subst he
      simp [State.setAdding] at hc'
      subst hc'
      exact ⟨f, x, by simp [Pool.fill]⟩
    · simp [State.setAdding, he] at hc'
      obtain ⟨f', x', hb⟩ := h.blank c' task' hc'
      have hne : task' ≠ task := by
        rintro rfl
        simp [hf] at hb
      exact ⟨f', x', by simpa [Pool.fill, hne] using hb⟩
  · intro w hw
    by_cases he : (Sum.inr w : Caller W P) = c
    · subst he
      exact hm
    · simp only [State.setAdding, Function.update_of_ne he] at hw
      exact h.inTask w hw

theorem ledger_push (h : Ledger s l) (hc : s.adding c = .filled task) :
    Ledger { s.setAdding c .pushed with
      pool := s.pool.addTask task, added := s.added ++ [task] } (l ++ [task]) := by
  obtain ⟨f, x, hb⟩ := h.blank c task hc
  have hmem := h.notMem_of_filled hc
  have hfill := filling_setAdding (s := s) (c := c) (x := .pushed)
  simp only [reduceCtorEq, if_false, hc, AddPc.filled.injEq] at hfill
  have hone : filling s task = 1 := by
    have := h.placed task
    simp [h.not_added hc, hb] at this
    exact this
  have hnone := hfill task
  simp only [if_pos] at hnone
  refine ⟨Pool.queued_addTask h.queued hmem hb, ?_, ?_, ?_, ?_⟩
  · intro task'
    have := h.balance task'
    change (l ++ [task]).count task' + held s task' + s.executed.count task' = _
    simp only [List.count_append]
    omega
  · intro task'
    have hold := h.placed task'
    have hf := hfill task'
    change filling (s.setAdding c .pushed) task' + (s.added ++ [task]).count task' = _
    rw [Pool.isSome_addTask, List.count_append, List.count_singleton]
    by_cases he : task = task'
    · simp only [he, if_pos, beq_self_eq_true] at hf ⊢
      omega
    · simp only [he, if_false, beq_iff_eq] at hf ⊢
      omega
  · intro c' task' hc'
    have hne : task' ≠ task := by
      rintro rfl
      exact Family.count_eq_zero.mp (show filling (s.setAdding c .pushed) task' = 0 by omega) c' hc'
    have hold : s.adding c' = .filled task' := by
      by_cases he : c' = c
      · subst he
        simp [State.setAdding] at hc'
      · simpa [State.setAdding, he] using hc'
    obtain ⟨f', x', hb'⟩ := h.blank c' task' hold
    exact ⟨f', x', (Pool.addTask_mem h.queued (h.notMem_of_filled hold) hne).trans hb'⟩
  · intro w hw
    by_cases he : (Sum.inr w : Caller W P) = c
    · subst he
      exact h.inTask w (by simp [hc])
    · simp only [State.setAdding, Function.update_of_ne he] at hw
      exact h.inTask w hw

theorem ledger_wake {V : Finset (Fin W)} (h : Ledger s l) : Ledger (s.wake V) l := by
  refine ⟨h.queued, ?_, h.placed, h.blank, ?_⟩
  · intro task
    rw [held_wake]
    exact h.balance task
  · intro w hw
    have hr := h.inTask w hw
    rcases wake_pc (s := s) (w := w) (V := V) with hp | ⟨hp, -⟩
    · exact hp.trans hr
    · simp [hr] at hp

theorem ledger_leave (h : Ledger s l) (hc : s.adding c = .pushed) :
    Ledger (s.setAdding c .outside) l := by
  refine ⟨h.queued, h.balance, ?_, ?_, ?_⟩
  · intro task
    have hf := filling_setAdding (s := s) (c := c) (x := .outside) task
    simp only [hc, reduceCtorEq, if_false, Nat.add_zero] at hf
    rw [hf]
    exact h.placed task
  · intro c' task hc'
    by_cases he : c' = c
    · subst he
      simp [State.setAdding] at hc'
    · exact h.blank c' task (by simpa [State.setAdding, he] using hc')
  · intro w hw
    by_cases he : (Sum.inr w : Caller W P) = c
    · subst he
      simp [State.setAdding] at hw
    · exact h.inTask w (by simpa [State.setAdding, he] using hw)

/-- A worker that does not run a task may change in any way that keeps what it holds. -/
theorem ledger_setWorker (h : Ledger s l) (hw : s.adding (.inr w) = .outside)
    (hk : ∀ task, Holds task k ↔ Holds task (s.workers w)) : Ledger (s.setWorker w k) l := by
  refine ⟨h.queued, ?_, h.placed, h.blank, ?_⟩
  · intro task
    have hheld := held_setWorker (s := s) (w := w) (k := k) task
    simp only [hk] at hheld
    have := h.balance task
    change l.count task + held (s.setWorker w k) task + s.executed.count task = s.added.count task
    omega
  · intro w' hw'
    by_cases he : w' = w
    · subst he
      exact absurd hw hw'
    · have := h.inTask w' hw'
      simpa [State.setWorker, he] using this

theorem Ledger.outside (h : Ledger s l) (hw : (s.workers w).pc ≠ .running) :
    s.adding (.inr w) = .outside := by
  by_contra hc
  exact hw (h.inTask w hc)

theorem ledger_test (h : Ledger s l)
    (hw : (s.workers w).pc = .lock ∨ (s.workers w).pc = .woken) :
    ∃ l', Ledger { s.setWorker w (threadPoolItem s.pool (s.workers w)).2 with
      pool := (threadPoolItem s.pool (s.workers w)).1 } l' := by
  have hno : ∀ task, ¬ Holds task (s.workers w) := by
    intro task hh
    rcases hw with hw | hw <;> simp [Holds, hw] at hh
  have hout := h.outside (w := w) (by rcases hw with hw | hw <;> simp [hw])
  rcases threadPoolItem_cases h.queued (s.workers w) with ⟨-, -, he⟩ | ⟨-, -, he⟩ |
    ⟨l', z, p', rfl, he, hq, -, hsome, hmem⟩
  · refine ⟨l, ?_⟩
    rw [he]
    exact ledger_setWorker h hout (fun task => iff_of_false (by simp [Holds]) (hno task))
  · refine ⟨l, ?_⟩
    rw [he]
    exact ledger_setWorker h hout (fun task => iff_of_false (by simp [Holds]) (hno task))
  · refine ⟨l', ?_⟩
    rw [he]
    refine ⟨hq, ?_, ?_, ?_, ?_⟩
    · intro task
      have hheld := held_setWorker (s := s) (w := w) (k := ⟨.call, some z⟩) task
      have hbal := h.balance task
      rw [if_neg (hno task)] at hheld
      simp only [List.count_append, List.count_singleton, Holds, true_or, true_and,
        Option.some.injEq, beq_iff_eq] at hheld hbal
      change l'.count task + held (s.setWorker w ⟨.call, some z⟩) task + s.executed.count task =
        s.added.count task
      omega
    · intro task
      rw [hsome]
      exact h.placed task
    · intro c task hc
      obtain ⟨f, x, hb⟩ := h.blank c task hc
      exact ⟨f, x, (hmem task (h.notMem_of_filled hc)).trans hb⟩
    · intro w' hw'
      by_cases he : w' = w
      · subst he
        exact absurd hout hw'
      · simpa [State.setWorker, he] using h.inTask w' hw'

theorem ledger_call (h : Ledger s l) (hw : (s.workers w).pc = .call)
    (ht : (s.workers w).threadTask = some task) :
    Ledger { s.setWorker w ⟨.running, some task⟩ with
      pool := { s.pool with mem := Pool.setPrev task none s.pool.mem } } l := by
  have hholds : Holds task (s.workers w) := ⟨Or.inl hw, ht⟩
  obtain ⟨hadd, hl⟩ := h.of_holds hholds
  have hbase := ledger_setWorker (w := w) (k := ⟨.running, some task⟩) h
    (h.outside (by simp [hw])) (by intro task'; simp [Holds, hw, ht])
  refine ⟨Pool.queued_setPrev h.queued hl, hbase.balance, ?_, ?_, hbase.inTask⟩
  · intro task'
    rw [Pool.isSome_setPrev]
    exact h.placed task'
  · intro c task' hc
    have hne : task' ≠ task := by
      rintro rfl
      have := h.not_added hc
      omega
    obtain ⟨f, x, hb⟩ := h.blank c task' hc
    exact ⟨f, x, (Pool.setPrev_of_ne hne).trans hb⟩

theorem ledger_finish (h : Ledger s l) (hw : (s.workers w).pc = .running)
    (hc : s.adding (.inr w) = .outside) (ht : (s.workers w).threadTask = some task) :
    Ledger { s.setWorker w ⟨.lock, some task⟩ with executed := s.executed ++ [task] } l := by
  refine ⟨h.queued, ?_, h.placed, h.blank, ?_⟩
  · intro task'
    have hheld := held_setWorker (s := s) (w := w) (k := ⟨.lock, some task⟩) task'
    have hbal := h.balance task'
    simp only [Holds, hw, ht, reduceCtorEq, or_true, true_and, or_self, false_and, if_false,
      Nat.add_zero, Option.some.injEq] at hheld
    change l.count task' + held (s.setWorker w ⟨.lock, some task⟩) task' +
      (s.executed ++ [task]).count task' = s.added.count task'
    simp only [List.count_append, List.count_singleton, beq_iff_eq]
    omega
  · intro w' hw'
    by_cases he : w' = w
    · subst he
      exact absurd hc hw'
    · simpa [State.setWorker, he] using h.inTask w' hw'

theorem ledger_step (hs : Step s act t) (h : Ledger s l) : ∃ l', Ledger t l' := by
  cases hs with
  | malloc _ f x hm hc hf => exact ⟨l, ledger_malloc h hm hc hf⟩
  | push hc => exact ⟨_, ledger_push h hc⟩
  | signal V hc _ => exact ⟨l, ledger_wake (ledger_leave h hc)⟩
  | spurious => exact ⟨l, ledger_wake h⟩
  | test hw => exact ledger_test h hw
  | skip hw ht =>
    exact ⟨l, ledger_setWorker h (h.outside (by simp [hw])) (by simp [Holds, ht])⟩
  | call hw ht => exact ⟨l, ledger_call h hw ht⟩
  | finish hw hc ht => exact ⟨l, ledger_finish h hw hc ht⟩
  | setStop _ => exact ⟨l, Pool.queued_stop h.queued, h.balance, h.placed, h.blank, h.inTask⟩
  | broadcast _ =>
    have hb := ledger_wake (V := Finset.univ) h
    exact ⟨l, hb.queued, hb.balance, hb.placed, hb.blank, hb.inTask⟩
  | join _ _ _ _ => exact ⟨l, h.queued, h.balance, h.placed, h.blank, h.inTask⟩
  | destroy _ _ => exact ⟨l, h.queued, h.balance, h.placed, h.blank, h.inTask⟩

theorem ledger_reachable (h : (system F A W P).Reachable s) : ∃ l, Ledger s l := by
  apply System.reachable_invariant (P := fun s => ∃ l, Ledger s l) ?_ ?_ h
  · intro s hi
    exact ⟨[], ledger_initial hi⟩
  · rintro s a t hs ⟨l, hl⟩
    exact ledger_step hs hl

end UnixCodes.ThreadPool
