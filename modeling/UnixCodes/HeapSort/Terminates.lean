import UnixCodes.HeapSort.Heapify

/-! `max_heapify` of `head_sort.c` returns, and how many swaps it makes before that. -/
namespace UnixCodes.HeapSort

open PointerTree MaxHeap

universe u

variable {α : Type u} [DecidableEq α] {m m' : Memory α} {q : Option α} {x hn : α}
  {t L R : BinaryTree α} {hcf : HeapCompareFn α} {gt : α → α → Prop} {swaps : List (α × α)}
  {calls : ℕ}

/-- A call of `max_heapify` that returns, with the swaps made by it and by the calls in it. -/
inductive HeapifyRun (hcf : HeapCompareFn α) :
    Memory α → Option α → List (α × α) → Memory α → Prop
  | null {m : Memory α} : HeapifyRun hcf m none [] m
  | stop {m : Memory α} {hn : α} {n : HeapNode α} (node : m.node hn = some n)
      (stays : chosen hcf hn n = some hn) : HeapifyRun hcf m (some hn) [] m
  | swap {m m₁ m' : Memory α} {hn tmp : α} {n : HeapNode α} {swaps : List (α × α)}
      (node : m.node hn = some n) (rises : chosen hcf hn n = some tmp) (ne : tmp ≠ hn)
      (swapped : swapHeapNode m hn tmp = some m₁)
      (rest : HeapifyRun hcf m₁ (some tmp) swaps m') :
      HeapifyRun hcf m (some hn) ((hn, tmp) :: swaps) m'

/-- Every call but the last makes one swap. -/
theorem run_of_heapify (h : maxHeapify hcf calls m q = some m') :
    ∃ swaps, HeapifyRun hcf m q swaps m' ∧ swaps.length < calls := by
  induction calls generalizing m q with
  | zero => cases h
  | succ calls ih =>
    cases q with
    | none =>
      obtain rfl := Option.some.inj h
      exact ⟨[], .null, Nat.succ_pos calls⟩
    | some hn =>
      obtain ⟨n, hn', h⟩ := Option.bind_eq_some_iff.mp h
      cases hc : chosen hcf hn n with
      | none => simp [hc] at h
      | some tmp =>
        simp only [hc] at h
        by_cases hne : tmp = hn
        · subst hne
          obtain rfl : m = m' := by simpa using h
          exact ⟨[], .stop hn' hc, Nat.succ_pos calls⟩
        · rw [if_neg hne] at h
          obtain ⟨m₁, hswap, h⟩ := Option.bind_eq_some_iff.mp h
          obtain ⟨swaps, hrun, hlt⟩ := ih h
          exact ⟨(hn, tmp) :: swaps, .swap hn' hc hne hswap hrun, Nat.succ_lt_succ hlt⟩

theorem HeapifyRun.heapify (h : HeapifyRun hcf m q swaps m') (hlt : swaps.length < calls) :
    maxHeapify hcf calls m q = some m' := by
  induction h generalizing calls with
  | null =>
    cases calls with
    | zero => cases hlt
    | succ calls => rfl
  | stop hn hc =>
    cases calls with
    | zero => cases hlt
    | succ calls => simp [maxHeapify, hn, hc]
  | swap hn hc hne hswap _ ih =>
    cases calls with
    | zero => cases hlt
    | succ calls =>
      simp only [maxHeapify, hn, hc, if_neg hne, hswap, Option.bind_eq_bind, Option.bind_some]
      exact ih (Nat.lt_of_succ_lt_succ hlt)

/-- The bound on the calls does not matter to a run that needs fewer. -/
theorem heapify_eq_some_iff : maxHeapify hcf calls m q = some m' ↔
    ∃ swaps, HeapifyRun hcf m q swaps m' ∧ swaps.length < calls := by
  constructor
  · exact run_of_heapify
  · rintro ⟨swaps, hrun, hlt⟩
    exact hrun.heapify hlt

omit [DecidableEq α] in
theorem heapified_shape (h : Heapified gt x L R t) : shape t = shape (.node x L R) := by
  cases h <;> rfl

omit [DecidableEq α] in
theorem compares_self (hnull : ∀ q, hcf none q = 0) :
    Compares hcf fun a b => hcf (some a) (some b) ≠ 0 := by
  intro a b
  cases a with
  | none => simp [hnull]
  | some a => simp

/-- For a comparator that is a strict partial order, `max_heapify` returns after at most two swaps,
and the heap has the same shape and the same nodes as before. -/
theorem heapify_terminates (hirr : ∀ a, hcf (some a) (some a) = 0)
    (htrans : ∀ a b c, hcf (some a) (some b) ≠ 0 → hcf (some b) (some c) ≠ 0 →
      hcf (some a) (some c) ≠ 0)
    (hnull : ∀ q, hcf none q = 0) (h : WellFormed m t) (hmem : hn ∈ inorder t) :
    ∃ swaps m' t', HeapifyRun hcf m (some hn) swaps m' ∧ swaps.length ≤ 2 ∧
      (∀ calls, swaps.length < calls → maxHeapify hcf calls m (some hn) = some m') ∧
      WellFormed m' t' ∧ shape t' = shape t ∧ (inorder t').Perm (inorder t) := by
  obtain ⟨L, R, f, rfl⟩ := exists_plug hmem
  have : IsStrictOrder α fun a b => hcf (some a) (some b) ≠ 0 :=
    { irrefl := fun a ha => ha (hirr a)
      trans := htrans }
  obtain ⟨m', t', hheapify, hwf, hheapified⟩ := heapify_runs (compares_self hnull) h
  obtain ⟨swaps, hrun, hlt⟩ := heapify_eq_some_iff.mp (hheapify 0)
  refine ⟨swaps, m', plug t' f, hrun, Nat.le_of_lt_succ hlt, ?_, hwf,
    shape_plug_congr (heapified_shape hheapified) f, ?_⟩
  · intro calls hcalls
    exact heapify_eq_some_iff.mpr ⟨swaps, hrun, hcalls⟩
  · have hnodes := (heapified_perm hheapified).append_right (around f)
    exact (inorder_plug_perm t' f).trans (hnodes.trans (inorder_plug_perm _ f).symm)

/-- A comparator for numbered nodes: larger are the proper divisors. -/
def compareDivisors : HeapCompareFn ℕ
  | some a, some b => if a ∣ b ∧ a ≠ b then 1 else 0
  | _, _ => 0

theorem compareDivisors_iff (a b : ℕ) :
    compareDivisors (some a) (some b) ≠ 0 ↔ a ∣ b ∧ a ≠ b := by simp [compareDivisors]

theorem compareDivisors_trans (a b c : ℕ) (hab : compareDivisors (some a) (some b) ≠ 0)
    (hbc : compareDivisors (some b) (some c) ≠ 0) : compareDivisors (some a) (some c) ≠ 0 := by
  rw [compareDivisors_iff] at *
  refine ⟨Nat.dvd_trans hab.1 hbc.1, ?_⟩
  rintro rfl
  exact hab.2 (Nat.dvd_antisymm hab.1 hbc.1)

/-- The right child of the root rises, and then the left child, which is larger than both. -/
theorem heapify_terminates_four : ∃ swaps m' t',
    HeapifyRun compareDivisors fourNodes (some 0) swaps m' ∧ swaps.length = 2 ∧
      WellFormed m' t' ∧
      shape t' = .node () (.node () .nil (.node () .nil .nil)) (.node () .nil .nil) ∧
      (inorder t').Perm [1, 3, 0, 2] := by
  have hroot : 0 ∈ inorder
      (.node 0 (.node 1 .nil (.node 3 .nil .nil)) (.node 2 .nil .nil)) := by decide
  obtain ⟨swaps, m', t', hrun, hle, hcalls, hwf, hshape, hperm⟩ :=
    heapify_terminates (by simp [compareDivisors]) compareDivisors_trans
      (fun q => by cases q <;> rfl) fourNodes_wellFormed hroot
  have htwo : ¬ swaps.length < 2 := by
    intro hlt
    have hone : maxHeapify compareDivisors 2 fourNodes (some 0) = none := rfl
    rw [hcalls 2 hlt] at hone
    cases hone
  exact ⟨swaps, m', t', hrun, by omega, hwf, hshape, hperm⟩

end UnixCodes.HeapSort
