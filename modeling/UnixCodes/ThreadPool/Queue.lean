import UnixCodes.Lib.LinkedList
import UnixCodes.ThreadPool.Model

/-! The queue that the links of the pool describe, and what the critical sections do to it. -/
namespace UnixCodes.ThreadPool

open LinkedList

variable {F A : Type} {p : Pool F A} {l : List Addr} {a b task z : Addr} {n : Option Addr}
  {mem : Addr → Option (Task F A)}

namespace Pool

theorem setNext_of_ne (h : b ≠ a) : setNext a n mem b = mem b := by
  simp [setNext, Function.update, h]

theorem setPrev_of_ne (h : b ≠ a) : setPrev a n mem b = mem b := by
  simp [setPrev, Function.update, h]

@[simp] theorem isSome_setNext : (setNext a n mem b).isSome = (mem b).isSome := by
  by_cases h : b = a
  · subst b
    simp [setNext]
  · rw [setNext_of_ne h]

@[simp] theorem isSome_setPrev : (setPrev a n mem b).isSome = (mem b).isSome := by
  by_cases h : b = a
  · subst b
    simp [setPrev]
  · rw [setPrev_of_ne h]

@[simp] theorem prev_setNext : (setNext a n mem b).bind Task.prev = (mem b).bind Task.prev := by
  by_cases h : b = a
  · subst b
    cases hm : mem a <;> simp [setNext, hm]
  · rw [setNext_of_ne h]

@[simp] theorem next_setPrev : (setPrev a n mem b).bind Task.next = (mem b).bind Task.next := by
  by_cases h : b = a
  · subst b
    cases hm : mem a <;> simp [setPrev, hm]
  · rw [setPrev_of_ne h]

theorem next_setNext_self (h : (mem a).isSome) : (setNext a n mem a).bind Task.next = n := by
  obtain ⟨k, hk⟩ := Option.isSome_iff_exists.mp h
  simp [setNext, hk]

theorem prev_setPrev_self (h : (mem a).isSome) : (setPrev a n mem a).bind Task.prev = n := by
  obtain ⟨k, hk⟩ := Option.isSome_iff_exists.mp h
  simp [setPrev, hk]

/-- The links describe the queue `l`, head first, in allocated nodes. -/
structure Queued (p : Pool F A) (l : List Addr) : Prop where
  linked : DoublyLinked p.next p.prev p.queue p.queueTail l
  alloc : ∀ a ∈ l, (p.mem a).isSome

theorem Queued.nodup (h : p.Queued l) : l.Nodup := segment_nodup h.linked.forward

theorem queued_empty : (⟨fun _ => none, none, none, false⟩ : Pool F A).Queued [] :=
  ⟨doublyLinked_nil, by simp⟩

theorem queued_stop {x : Bool} (h : p.Queued l) : ({ p with stop := x } : Pool F A).Queued l :=
  ⟨h.linked, h.alloc⟩

theorem queued_fill {f : F} {x : A} (h : p.Queued l) (hf : p.mem task = none) :
    (p.fill task f x).Queued l := by
  have hne : ∀ a ∈ l, a ≠ task := by
    rintro a ha rfl
    simpa [hf] using h.alloc a ha
  refine ⟨h.linked.congr ?_ ?_, ?_⟩
  · intro a ha
    simp [next, fill, hne a ha]
  · intro a ha
    simp [prev, fill, hne a ha]
  · intro a ha
    simpa [fill, hne a ha] using h.alloc a ha

theorem queued_setPrev (h : p.Queued l) (ht : task ∉ l) :
    ({ p with mem := setPrev task n p.mem } : Pool F A).Queued l := by
  refine ⟨h.linked.congr ?_ ?_, ?_⟩
  · intro a _
    simp [next]
  · intro a ha
    simp [prev, setPrev_of_ne (show a ≠ task from fun he => ht (he ▸ ha))]
  · intro a ha
    simpa using h.alloc a ha

/-- `add_task` puts its node behind the tail and leaves the rest of the queue alone. -/
theorem queued_addTask {f : F} {x : A} (h : p.Queued l) (ht : task ∉ l)
    (hm : p.mem task = some ⟨f, x, none, none⟩) : (p.addTask task).Queued (l ++ [task]) := by
  cases hq : p.queueTail with
  | none =>
    obtain rfl := h.linked.tail_eq_none.mp hq
    refine ⟨⟨?_, ?_⟩, ?_⟩ <;> simp [addTask, hq, next, prev, hm]
  | some tail =>
    obtain ⟨l, z, rfl⟩ : ∃ l' z, l = l' ++ [z] := by
      rcases List.eq_nil_or_concat' l with rfl | hl
      · simp [h.linked.tail_eq_none.mpr rfl] at hq
      · exact hl
    obtain rfl : z = tail := Option.some.inj (h.linked.tail_eq.symm.trans hq)
    have hz : z ≠ task := by
      rintro rfl
      simp at ht
    have hp : p.addTask task = { p with
        mem := setNext z (some task) (setPrev task (some z) p.mem), queueTail := some task } := by
      simp [addTask, hq]
    have hlink : DoublyLinked (p.addTask task).next (p.addTask task).prev
        (if p.queueTail = none then some task else p.queue) (some task) (l ++ [z] ++ [task]) := by
      refine h.linked.push ?_ ?_ ?_ ?_ ?_
      · intro a _ hne
        have : a ≠ z := by
          rintro rfl
          exact hne hq.symm
        simp [next, hp, setNext_of_ne this]
      · intro y hy
        obtain rfl := Option.some.inj (hq.symm.trans hy)
        simp only [next, hp]
        exact next_setNext_self (by simpa using h.alloc z (by simp))
      · simp [next, hp, setNext_of_ne hz.symm, hm]
      · intro a ha
        have : a ≠ task := by
          rintro rfl
          exact ht ha
        simp [prev, hp, setPrev_of_ne this]
      · simp only [prev, hp, prev_setNext, hq]
        exact prev_setPrev_self (by simp [hm])
    constructor
    · simpa [hp, hq] using hlink
    · intro a ha
      rcases List.mem_append.mp ha with ha | ha
      · simpa [hp] using h.alloc a ha
      · simp_all

theorem addTask_stop : (p.addTask task).stop = p.stop := by
  unfold addTask
  split <;> rfl

theorem isSome_addTask : ((p.addTask task).mem b).isSome = (p.mem b).isSome := by
  unfold addTask
  split <;> simp

/-- Nodes outside the queue, other than the one that joins it, keep all their fields. -/
theorem addTask_mem (h : p.Queued l) (hb : b ∉ l) (hne : b ≠ task) :
    (p.addTask task).mem b = p.mem b := by
  unfold addTask
  split
  · rfl
  · rename_i tail hq
    have : b ≠ tail := by
      rintro rfl
      rcases List.eq_nil_or_concat' l with rfl | ⟨l, z, rfl⟩
      · simp [h.linked.tail_eq_none.mpr rfl] at hq
      · obtain rfl : z = b := Option.some.inj (h.linked.tail_eq.symm.trans hq)
        simp at hb
    simp [setNext_of_ne this, setPrev_of_ne hne]

/-- From a queue that ends in `z`, the dequeue takes `z` whatever the worker held before. -/
theorem dequeue_spec {o : Option Addr} (h : p.Queued (l ++ [z])) :
    (p.dequeue o).2 = some z ∧ (p.dequeue o).1.Queued l ∧ (p.dequeue o).1.stop = p.stop ∧
      (∀ b, ((p.dequeue o).1.mem b).isSome = (p.mem b).isSome) ∧
      ∀ b, b ∉ l ++ [z] → (p.dequeue o).1.mem b = p.mem b := by
  have hq := h.linked.tail_eq
  cases hy : p.prev z with
  | none =>
    have hp : p.dequeue o = ({ p with queueTail := none, queue := none }, some z) := by
      simp [dequeue, hq, hy]
    have hlink : DoublyLinked p.next p.prev (if p.prev z = none then none else p.queue)
        (p.prev z) l := h.linked.pop (by simp) (by simp [hy]) (by simp)
    refine ⟨by rw [hp], ⟨?_, ?_⟩, by rw [hp], by simp [hp], by simp [hp]⟩
    · rw [hp]
      rw [hy, if_pos rfl] at hlink
      exact hlink
    · intro a ha
      simpa [hp] using h.alloc a (by simp [ha])
  | some y =>
    have hp : p.dequeue o =
        ({ p with queueTail := some y, mem := setNext y none p.mem }, some z) := by
      simp [dequeue, hq, hy]
    have hyl : y ∈ l := by
      have hb := h.linked.backward
      rw [List.reverse_append] at hb
      have hb := hb.2
      rw [hy] at hb
      rcases List.eq_nil_or_concat' l with rfl | ⟨l, x, rfl⟩
      · simp at hb
      · rw [List.reverse_append] at hb
        simp [Option.some.inj hb.1]
    have hlink : DoublyLinked (p.dequeue o).1.next (p.dequeue o).1.prev
        (if p.prev z = none then none else p.queue) (p.prev z) l := by
      refine h.linked.pop ?_ ?_ ?_
      · intro a _ hne
        have : a ≠ y := by
          rintro rfl
          exact hne hy.symm
        simp [next, hp, setNext_of_ne this]
      · intro x hx
        obtain rfl := Option.some.inj (hy.symm.trans hx)
        simp only [next, hp]
        exact next_setNext_self (h.alloc y (by simp [hyl]))
      · intro a _
        simp [prev, hp]
    refine ⟨by rw [hp], ⟨?_, ?_⟩, by rw [hp], by simp [hp], ?_⟩
    · simpa [hp, hy] using hlink
    · intro a ha
      simpa [hp] using h.alloc a (by simp [ha])
    · intro b hb
      have : b ≠ y := by
        rintro rfl
        simp [hyl] at hb
      simp [hp, setNext_of_ne this]

end Pool

/-- The three ways through the critical section of a worker. -/
theorem threadPoolItem_cases (h : p.Queued l) (k : Worker) :
    (l = [] ∧ p.stop = false ∧ threadPoolItem p k = (p, { k with pc := .wait })) ∨
    (l = [] ∧ p.stop = true ∧ threadPoolItem p k = (p, { k with pc := .exited })) ∨
    ∃ l' z p', l = l' ++ [z] ∧ threadPoolItem p k = (p', ⟨.call, some z⟩) ∧ p'.Queued l' ∧
      p'.stop = p.stop ∧ (∀ b, (p'.mem b).isSome = (p.mem b).isSome) ∧
      ∀ b, b ∉ l → p'.mem b = p.mem b := by
  rcases List.eq_nil_or_concat' l with rfl | ⟨l, z, rfl⟩
  · have hq := h.linked.head_eq_none.mpr rfl
    cases hs : p.stop with
    | false => exact Or.inl ⟨rfl, rfl, by simp [threadPoolItem, hq, hs]⟩
    | true => exact Or.inr (Or.inl ⟨rfl, rfl, by simp [threadPoolItem, hq, hs]⟩)
  · have hq : p.queue ≠ none := by simp [h.linked.head_eq_none]
    obtain ⟨htask, hqueued, hstop, hsome, hmem⟩ := Pool.dequeue_spec (o := k.threadTask) h
    refine Or.inr (Or.inr ⟨l, z, (p.dequeue k.threadTask).1, rfl, ?_, hqueued, hstop, hsome, hmem⟩)
    simp [threadPoolItem, hq, htask]

theorem dequeue_stop {p : Pool F A} {o : Option Addr} : (p.dequeue o).1.stop = p.stop := by
  unfold Pool.dequeue
  repeat' split
  all_goals rfl

theorem threadPoolItem_stop {p : Pool F A} {k : Worker} :
    (threadPoolItem p k).1.stop = p.stop := by
  unfold threadPoolItem
  repeat' split
  all_goals first | rfl | exact dequeue_stop

/-- A worker leaves only through the test of `stop` and `queue`. -/
theorem threadPoolItem_exited {p : Pool F A} {k : Worker}
    (h : (threadPoolItem p k).2.pc = .exited) :
    (threadPoolItem p k).1.stop = true ∧ (threadPoolItem p k).1.queue = none := by
  by_cases hq : p.queue = none
  · cases hs : p.stop <;> simp_all [threadPoolItem]
  · simp [threadPoolItem, hq] at h

theorem threadPoolItem_queue {p : Pool F A} {k : Worker} (h : p.queue = none) :
    (threadPoolItem p k).1.queue = none := by
  cases hs : p.stop <;> simp [threadPoolItem, h, hs]

end UnixCodes.ThreadPool
