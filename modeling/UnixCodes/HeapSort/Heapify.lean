import Mathlib.Order.Lattice
import Mathlib.Order.Nat
import UnixCodes.HeapSort.Involution
import UnixCodes.Lib.MaxHeap

/-! How far `max_heapify` of `head_sort.c` restores a heap. -/
namespace UnixCodes.HeapSort

open PointerTree MaxHeap

universe u v

variable {α : Type u} [DecidableEq α] {m m' : Memory α} {s : Side} {x c l r : α}
  {n k : HeapNode α} {t A L R L₁ L₂ R₁ R₂ : BinaryTree α} {f : List (Frame α)}
  {hcf : HeapCompareFn α} {gt : α → α → Prop}

/-- The comparator finds its first argument larger if this is not NULL and is larger. -/
def Compares (hcf : HeapCompareFn α) (gt : α → α → Prop) : Prop :=
  ∀ a b, hcf a (some b) ≠ 0 ↔ ∃ x, a = some x ∧ gt x b

/-- What `max_heapify` makes of `x` above the subtrees `L` and `R`. A swap is followed by a second
one only if the left child is larger than the right child. -/
inductive Heapified (gt : α → α → Prop) (x : α) :
    BinaryTree α → BinaryTree α → BinaryTree α → Prop
  | stay {L R : BinaryTree α} (hL : ¬ Larger gt L x) (hR : ¬ Larger gt R x) :
      Heapified gt x L R (.node x L R)
  | left {l : α} {L₁ L₂ R : BinaryTree α} (hl : gt l x) (hR : ¬ Larger gt R x) :
      Heapified gt x (.node l L₁ L₂) R (.node l (.node x L₁ L₂) R)
  | right {r : α} {L R₁ R₂ : BinaryTree α} (hr : gt r x) (hL : ¬ Larger gt L r) :
      Heapified gt x L (.node r R₁ R₂) (.node r L (.node x R₁ R₂))
  | both {l r : α} {L₁ L₂ R₁ R₂ : BinaryTree α} (hr : gt r x) (hl : gt l r) :
      Heapified gt x (.node l L₁ L₂) (.node r R₁ R₂) (.node l (.node r L₁ L₂) (.node x R₁ R₂))

omit [DecidableEq α] in
theorem holds_top {p q : Option α} (h : Holds m.node p q t) : q = top t := by
  cases t with
  | nil => exact h
  | node a l r => exact h.1

omit [DecidableEq α] in
/-- The tests of `max_heapify` look at the roots of the subtrees. -/
theorem exists_contents (h : WellFormed m (plug (.node x L R) f)) :
    ∃ n, m.node x = some n ∧ n.left = top L ∧ n.right = top R := by
  obtain ⟨p, q, -, -, n, hn, -, hL, hR⟩ := holds_plug.mp h.holds
  exact ⟨n, hn, holds_top hL, holds_top hR⟩

omit [DecidableEq α] in
theorem compares_top (hcmp : Compares hcf gt) :
    hcf (top t) (some x) ≠ 0 ↔ Larger gt t x := hcmp ..

theorem heapify_stay (hcmp : Compares hcf gt) (h : WellFormed m (plug (.node x L R) f))
    (hL : ¬ Larger gt L x) (hR : ¬ Larger gt R x) (calls : ℕ) :
    maxHeapify hcf (calls + 1) m (some x) = some m := by
  obtain ⟨n, hn, hleft, hright⟩ := exists_contents h
  have hchosen : chosen hcf x n = some x := by
    unfold chosen
    rw [hleft, hright, if_neg (mt (compares_top hcmp).mp hR), if_neg (mt (compares_top hcmp).mp hL)]
  simp only [maxHeapify, hn, Option.bind_eq_bind, Option.bind_some, hchosen, if_true]

/-- A swap with the child that has been chosen; the next call is for this child. -/
theorem heapify_swap (h : WellFormed m (plug (join s x (.node c L R) A) f))
    (hchosen : ∀ n, m.node x = some n → chosen hcf x n = some c) :
    ∃ m', WellFormed m' (plug (join s c (.node x L R) A) f) ∧
      ∀ calls, maxHeapify hcf (calls + 1) m (some x) = maxHeapify hcf calls m' (some c) := by
  obtain ⟨n, k, hsite⟩ := h.exists_site
  obtain ⟨m', hrun, -, hwf, -⟩ := site_swap hsite
  refine ⟨m', hwf, fun calls => ?_⟩
  simp only [maxHeapify, hsite.parent, Option.bind_eq_bind, Option.bind_some,
    hchosen n hsite.parent, if_neg hsite.apart.ne.symm, hrun]

theorem heapify_swap_right (hcmp : Compares hcf gt)
    (h : WellFormed m (plug (.node x L (.node r R₁ R₂)) f)) (hr : gt r x) :
    ∃ m', WellFormed m' (plug (.node r L (.node x R₁ R₂)) f) ∧
      ∀ calls, maxHeapify hcf (calls + 1) m (some x) = maxHeapify hcf calls m' (some r) := by
  obtain ⟨n, hn, -, hright⟩ := exists_contents h
  refine heapify_swap (s := .right) h fun n' hn' => ?_
  obtain rfl := Option.some.inj (hn.symm.trans hn')
  have htest : hcf n.right (some x) ≠ 0 := by
    rw [hright]
    exact (compares_top hcmp).mpr (larger_node.mpr hr)
  unfold chosen
  rw [if_pos htest]
  exact hright

theorem heapify_swap_left (hcmp : Compares hcf gt)
    (h : WellFormed m (plug (.node x (.node l L₁ L₂) R) f)) (hl : gt l x)
    (hR : ¬ Larger gt R x) :
    ∃ m', WellFormed m' (plug (.node l (.node x L₁ L₂) R) f) ∧
      ∀ calls, maxHeapify hcf (calls + 1) m (some x) = maxHeapify hcf calls m' (some l) := by
  obtain ⟨n, hn, hleft, hright⟩ := exists_contents h
  refine heapify_swap (s := .left) h fun n' hn' => ?_
  obtain rfl := Option.some.inj (hn.symm.trans hn')
  have htest : hcf n.left (some x) ≠ 0 := by
    rw [hleft]
    exact (compares_top hcmp).mpr (larger_node.mpr hl)
  unfold chosen
  rw [hright, if_neg (mt (compares_top hcmp).mp hR), if_pos htest]
  exact hleft

/-- Three calls are enough, for any strict order. -/
theorem heapify_runs [IsStrictOrder α gt] (hcmp : Compares hcf gt)
    (h : WellFormed m (plug (.node x L R) f)) :
    ∃ m' t', (∀ calls, maxHeapify hcf (calls + 3) m (some x) = some m') ∧
      WellFormed m' (plug t' f) ∧ Heapified gt x L R t' := by
  by_cases hR : Larger gt R x
  · cases R with
    | nil => exact absurd hR larger_nil
    | node r R₁ R₂ =>
      have hr : gt r x := larger_node.mp hR
      obtain ⟨m₁, hwf₁, hrun₁⟩ := heapify_swap_right hcmp h hr
      have hx : ¬ Larger gt (.node x R₁ R₂) r := not_larger_node hr
      by_cases hL : Larger gt L r
      · cases L with
        | nil => exact absurd hL larger_nil
        | node l L₁ L₂ =>
          have hl : gt l r := larger_node.mp hL
          obtain ⟨m₂, hwf₂, hrun₂⟩ := heapify_swap_left hcmp hwf₁ hl hx
          have hr' : ¬ Larger gt (.node r L₁ L₂) l := not_larger_node hl
          have hx' : ¬ Larger gt (.node x R₁ R₂) l := not_larger_node (IsTrans.trans l r x hl hr)
          refine ⟨m₂, _, fun calls => ?_, hwf₂, .both hr hl⟩
          rw [hrun₁, hrun₂, heapify_stay hcmp hwf₂ hr' hx']
      · refine ⟨m₁, _, fun calls => ?_, hwf₁, .right hr hL⟩
        rw [hrun₁, heapify_stay hcmp hwf₁ hL hx]
  · by_cases hL : Larger gt L x
    · cases L with
      | nil => exact absurd hL larger_nil
      | node l L₁ L₂ =>
        have hl : gt l x := larger_node.mp hL
        obtain ⟨m₁, hwf₁, hrun₁⟩ := heapify_swap_left hcmp h hl hR
        have hx : ¬ Larger gt (.node x L₁ L₂) l := not_larger_node hl
        have hR' : ¬ Larger gt R l := fun hlarger => hR (hlarger.trans hl)
        refine ⟨m₁, _, fun calls => ?_, hwf₁, .left hl hR⟩
        rw [hrun₁, heapify_stay hcmp hwf₁ hx hR']
    · exact ⟨m, _, fun calls => heapify_stay hcmp h hL hR _, h, .stay hL hR⟩

theorem heapified_perm (h : Heapified gt x L R t) :
    (inorder t).Perm (inorder (.node x L R)) := by
  refine List.perm_iff_count.mpr fun a => ?_
  cases h with
  | stay => rfl
  | left | right | both =>
    simp only [inorder, List.count_append, List.count_cons]
    omega

/-- A node that sinks is not smaller than what comes below it: this is `x`, and where the left child
is larger than the right child, which is larger than `x`, the right child as well. -/
def Settles (gt : α → α → Prop) (x : α) (L R : BinaryTree α) : Prop :=
  (Larger gt R x → Covers gt x R ∧ ∀ r, top R = some r → Larger gt L r → Covers gt r L) ∧
  (¬ Larger gt R x → Larger gt L x → Covers gt x L)

omit [DecidableEq α] in
theorem heapified_isMaxHeap_iff [IsStrictOrder α gt] (h : Heapified gt x L R t)
    (hL : IsMaxHeap gt L) (hR : IsMaxHeap gt R) : IsMaxHeap gt t ↔ Settles gt x L R := by
  cases h with
  | stay hL' hR' =>
    constructor
    · intro _
      exact ⟨fun hlarger => absurd hlarger hR', fun _ hlarger => absurd hlarger hL'⟩
    · intro _
      exact ⟨⟨hL', hR'⟩, hL, hR⟩
  | @left l L₁ L₂ R hl hR' =>
    have hcovers := isMaxHeap_replace hL x
    constructor
    · rintro ⟨-, hx, -⟩
      exact ⟨fun hlarger => absurd hlarger hR', fun _ _ => hcovers.mp hx⟩
    · rintro ⟨-, hsettles⟩
      have hx := hcovers.mpr (hsettles hR' (larger_node.mpr hl))
      exact ⟨⟨not_larger_node hl, fun hlarger => hR' (hlarger.trans hl)⟩, hx, hR⟩
  | @right r L R₁ R₂ hr hL' =>
    have hcovers := isMaxHeap_replace hR x
    constructor
    · rintro ⟨-, -, hx⟩
      refine ⟨fun _ => ⟨hcovers.mp hx, ?_⟩, fun hlarger => absurd (larger_node.mpr hr) hlarger⟩
      rintro r' ⟨⟩ hlarger
      exact absurd hlarger hL'
    · rintro ⟨hsettles, -⟩
      have hx := hcovers.mpr (hsettles (larger_node.mpr hr)).1
      exact ⟨⟨hL', not_larger_node hr⟩, hL, hx⟩
  | @both l r L₁ L₂ R₁ R₂ hr hl =>
    have hcoversL := isMaxHeap_replace hL r
    have hcoversR := isMaxHeap_replace hR x
    constructor
    · rintro ⟨-, hr', hx⟩
      refine ⟨fun _ => ⟨hcoversR.mp hx, ?_⟩, fun hlarger => absurd (larger_node.mpr hr) hlarger⟩
      rintro r' ⟨⟩ -
      exact hcoversL.mp hr'
    · rintro ⟨hsettles, -⟩
      obtain ⟨hx, hr'⟩ := hsettles (larger_node.mpr hr)
      exact ⟨⟨not_larger_node hl, not_larger_node (IsTrans.trans l r x hl hr)⟩,
        hcoversL.mpr (hr' r rfl (larger_node.mpr hl)), hcoversR.mpr hx⟩

/-- Nodes are compared by their keys. -/
def ByKey {κ : Type v} [LinearOrder κ] (key : α → κ) (a b : α) : Prop := key b < key a

instance {κ : Type v} [LinearOrder κ] (key : α → κ) : IsStrictOrder α (ByKey key) where
  irrefl a := lt_irrefl (key a)
  trans _ _ _ hab hbc := lt_trans hbc hab

/-- After `max_heapify` the subtree in the place of `hn` has the same nodes, and it is a heap
exactly if the nodes that sink by one level have no larger child there. -/
theorem heapify_isMaxHeap_iff {κ : Type v} [LinearOrder κ] (key : α → κ) {hn : α}
    (hcmp : ∀ a b, hcf a (some b) ≠ 0 ↔ ∃ x, a = some x ∧ key b < key x)
    (h : WellFormed m (plug (.node hn L R) f)) (hL : IsMaxHeap (ByKey key) L)
    (hR : IsMaxHeap (ByKey key) R) :
    ∃ m' t', (∀ calls, 3 ≤ calls → maxHeapify hcf calls m (some hn) = some m') ∧
      WellFormed m' (plug t' f) ∧ (inorder t').Perm (inorder (.node hn L R)) ∧
      (IsMaxHeap (ByKey key) t' ↔ Settles (ByKey key) hn L R) := by
  have hcompares : Compares hcf (ByKey key) := hcmp
  obtain ⟨m', t', hrun, hwf, hheapified⟩ := heapify_runs hcompares h
  refine ⟨m', t', fun calls hcalls => ?_, hwf, heapified_perm hheapified,
    heapified_isMaxHeap_iff hheapified hL hR⟩
  obtain ⟨k, rfl⟩ := Nat.exists_eq_add_of_le' hcalls
  exact hrun k

/-- A comparator for numbered nodes with numbers as keys. -/
def compareKeys (key : ℕ → ℕ) : HeapCompareFn ℕ
  | some a, some b => if key b < key a then 1 else 0
  | _, _ => 0

theorem compareKeys_iff (key : ℕ → ℕ) (a : Option ℕ) (b : ℕ) :
    compareKeys key a (some b) ≠ 0 ↔ ∃ x, a = some x ∧ key b < key x := by
  cases a <;> simp [compareKeys]

/-- The root is smaller than its left child, and not smaller than a child of that one. -/
theorem heapify_isMaxHeap_iff_four : ∃ m' t',
    maxHeapify (compareKeys fun a => if a = 1 then 3 else 2 - a) 3 fourNodes (some 0) = some m' ∧
      WellFormed m' t' ∧ IsMaxHeap (ByKey fun a => if a = 1 then 3 else 2 - a) t' := by
  obtain ⟨m', t', hrun, hwf, -, hiff⟩ := heapify_isMaxHeap_iff (f := [])
    (fun a => if a = 1 then 3 else 2 - a) (compareKeys_iff _) fourNodes_wellFormed
    (by simp [IsMaxHeap, ByKey]) (by simp [IsMaxHeap])
  refine ⟨m', t', hrun 3 le_rfl, hwf, hiff.mpr ⟨?_, ?_⟩⟩
  · intro hlarger
    simp [ByKey] at hlarger
  · intro _ _
    simp [Covers, ByKey]

/-- A root, its left child and the left child of that one. -/
def chain : Memory ℕ where
  node
    | 0 => some ⟨some 1, none, none⟩
    | 1 => some ⟨some 2, none, some 0⟩
    | 2 => some ⟨none, none, some 1⟩
    | _ => none
  max := some 0
  nelts := 3

/-- The root has the smallest key; it sinks by one level and stays above the key in the middle. -/
theorem heapify_stops_early :
    ¬ ∀ (m m' : Memory ℕ) (hn : ℕ) (L R : BinaryTree ℕ) (f : List (Frame ℕ)) (calls : ℕ),
      WellFormed m (plug (.node hn L R) f) →
      IsMaxHeap (ByKey fun a => 2 * a % 3) L → IsMaxHeap (ByKey fun a => 2 * a % 3) R →
      maxHeapify (compareKeys fun a => 2 * a % 3) calls m (some hn) = some m' →
        ∃ t', WellFormed m' (plug t' f) ∧ IsMaxHeap (ByKey fun a => 2 * a % 3) t' := by
  intro hall
  let L : BinaryTree ℕ := .node 1 (.node 2 .nil .nil) .nil
  have hwf : WellFormed chain (plug (.node 0 L .nil) []) :=
    ⟨⟨rfl, _, rfl, rfl, ⟨rfl, _, rfl, rfl, ⟨rfl, _, rfl, rfl, rfl, rfl⟩, rfl⟩, rfl⟩, by decide⟩
  have hL : IsMaxHeap (ByKey fun a => 2 * a % 3) L := by simp [L, IsMaxHeap, ByKey]
  have hcompares : Compares (compareKeys fun a => 2 * a % 3) (ByKey fun a => 2 * a % 3) :=
    compareKeys_iff _
  obtain ⟨m', t', hrun, hwf', hheapified⟩ := heapify_runs hcompares hwf
  obtain ⟨t'', hwf'', hheap⟩ := hall chain m' 0 L .nil [] 3 hwf hL trivial (hrun 0)
  obtain rfl : t'' = t' := hwf''.holds.unique hwf'.holds
  have hsettles := (heapified_isMaxHeap_iff hheapified hL trivial).mp hheap
  have hcovers := hsettles.2 larger_nil (by simp [L, ByKey])
  simp [L, Covers, ByKey] at hcovers

end UnixCodes.HeapSort
