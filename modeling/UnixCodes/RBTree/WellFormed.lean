import UnixCodes.RBTree.Rotations

/-! A rotation in a well-formed tree. -/
namespace UnixCodes.RBTree

open PointerTree

universe u v

variable {α : Type u} {κ : Type v} [DecidableEq α] {m m' : Memory α κ} {s : Side}
  {x y a b : α} {n r k : RBTreeNode α κ} {t t' A B C : BinaryTree α} {c : List (Frame α)}

/-- The nodes at `T->root` are the finite binary tree `t`: the child and the parent pointers agree,
and no node is at two places. -/
structure WellFormed (m : Memory α κ) (t : BinaryTree α) : Prop where
  holds : Holds m.links none m.root t
  nodup : (inorder t).Nodup

/-- The place of a rotation: the pivot `x` below the frames `c`, its child `y` on the side `s`, the
subtrees `C` and `B` of `y`, and the other subtree `A` of `x`. -/
structure Site (s : Side) (m : Memory α κ) (x y : α) (n r : RBTreeNode α κ)
    (A B C : BinaryTree α) (c : List (Frame α)) : Prop where
  pivot : m.node x = some n
  rising : m.node y = some r
  child : n.child s = some y
  above : HoldsAround m.links m.root n.parent (some x) c
  sibling : Holds m.links (some x) (n.child s.other) A
  moved : Holds m.links (some y) (r.child s.other) B
  outer : Holds m.links (some y) (r.child s) C
  nodup : (x :: y :: (inorder A ++ inorder B ++ inorder C ++ around c)).Nodup

omit [DecidableEq α]

theorem links_eq (h : m.node a = some n) : m.links a = some n.links := by
  rw [Memory.links, h, Option.map_some]

theorem exists_node {l : Links α} (h : m.links a = some l) : ∃ n, m.node a = some n ∧ n.links = l :=
  Option.map_eq_some_iff.mp h

theorem links_congr (h : m'.node a = m.node a) : m'.links a = m.links a := by
  rw [Memory.links, h, Memory.links]

/-- The nodes at the place of a rotation, as they are before it. -/
theorem site_perm (s : Side) (x y : α) (A B C : BinaryTree α) (c : List (Frame α)) :
    (inorder (plug (join s x (join s y C B) A) c)).Perm
      (x :: y :: (inorder A ++ inorder B ++ inorder C ++ around c)) := by
  have hinner : (inorder (join s y C B) ++ inorder A).Perm
      (y :: (inorder A ++ inorder B ++ inorder C)) := by
    refine ((inorder_join_perm s y C B).append_right (inorder A)).trans ?_
    refine List.Perm.cons y ?_
    refine (List.perm_append_comm).trans ?_
    rw [List.append_assoc]
    exact List.perm_append_comm.append_left (inorder A)
  have houter := (inorder_join_perm s x (join s y C B) A).trans (hinner.cons x)
  exact (inorder_plug_perm _ c).trans (houter.append_right (around c))

theorem WellFormed.exists_site (h : WellFormed m (plug (join s x (join s y C B) A) c)) :
    ∃ n r, Site s m x y n r A B C c := by
  obtain ⟨p, q, hc, hpivot⟩ := holds_plug.mp h.holds
  obtain ⟨rfl, k, hk, rfl, hrising, hA⟩ := holds_join.mp hpivot
  obtain ⟨hchild, l, hl, -, hC, hB⟩ := holds_join.mp hrising
  obtain ⟨n, hn, rfl⟩ := exists_node hk
  obtain ⟨r, hr, rfl⟩ := exists_node hl
  rw [RBTreeNode.links_child] at hchild hA hB hC
  exact ⟨n, r, hn, hr, hchild, hc, hA, hB, hC, (site_perm ..).nodup_iff.mp h.nodup⟩

/-- A node with a child on the side `s` is at the place of a rotation. -/
theorem WellFormed.exists_place (s : Side) (h : WellFormed m t) (hx : x ∈ inorder t) :
    ∃ n, m.node x = some n ∧ (n.child s = none ∨
      ∃ y A B C c, n.child s = some y ∧ t = plug (join s x (join s y C B) A) c) := by
  obtain ⟨l, r, c, rfl⟩ := exists_plug hx
  obtain ⟨u, A, hjoin⟩ := join_eq_node s x l r
  rw [hjoin] at h ⊢
  obtain ⟨p, q, -, hpivot⟩ := holds_plug.mp h.holds
  obtain ⟨-, k, hk, -, hu, -⟩ := holds_join.mp hpivot
  obtain ⟨n, hn, rfl⟩ := exists_node hk
  rw [RBTreeNode.links_child] at hu
  refine ⟨n, hn, ?_⟩
  cases hchild : n.child s with
  | none => exact Or.inl rfl
  | some y =>
    rw [hchild] at hu
    obtain ⟨C, B, rfl⟩ := hu.exists_join s
    exact Or.inr ⟨y, A, B, C, c, rfl, rfl⟩

namespace Site

theorem pivot_ne (h : Site s m x y n r A B C c)
    (ha : a ∈ inorder A ++ inorder B ++ inorder C ++ around c) : a ≠ x := by
  rintro rfl
  exact (List.nodup_cons.mp h.nodup).1 (List.mem_cons_of_mem _ ha)

theorem rising_ne (h : Site s m x y n r A B C c)
    (ha : a ∈ inorder A ++ inorder B ++ inorder C ++ around c) : a ≠ y := by
  rintro rfl
  exact (List.nodup_cons.mp (List.nodup_cons.mp h.nodup).2).1 ha

theorem ne (h : Site s m x y n r A B C c) : x ≠ y := by
  rintro rfl
  exact (List.nodup_cons.mp h.nodup).1 List.mem_cons_self

/-- The root of the moved subtree is not outside of it. -/
theorem moved_ne (h : Site s m x y n r A B C c)
    (ha : a ∈ inorder A ∨ a ∈ inorder C ∨ a ∈ around c) :
    r.child s.other ≠ some a := by
  intro hb
  have hmoved := h.moved
  rw [hb] at hmoved
  have hB := hmoved.mem
  have hnodup := (List.nodup_cons.mp (List.nodup_cons.mp h.nodup).2).2
  simp only [List.nodup_append, List.mem_append] at hnodup
  obtain ⟨⟨⟨-, -, hAB⟩, -, hBC⟩, -, hall⟩ := hnodup
  rcases ha with hA | hC | hc
  · exact hAB a hA a hB rfl
  · exact hBC a (Or.inr hB) a hC rfl
  · exact hall a (Or.inl (Or.inr hB)) a hc rfl

/-- The parent of the pivot is not below it. -/
theorem parent_ne (h : Site s m x y n r A B C c)
    (ha : a ∈ inorder A ++ inorder B ++ inorder C) : n.parent ≠ some a := by
  intro hp
  have habove := h.above
  rw [hp] at habove
  obtain ⟨hmem, -⟩ := habove.parent_mem
  have hnodup := (List.nodup_cons.mp (List.nodup_cons.mp h.nodup).2).2
  exact (List.nodup_append.mp hnodup).2.2 a ha a hmem rfl

theorem apart (h : Site s m x y n r A B C c) : Apart s m x y n r := by
  refine ⟨h.pivot, h.rising, h.child, h.ne, ?_, ?_⟩
  · intro b hb
    have hmoved := h.moved
    rw [hb] at hmoved
    have hB : b ∈ inorder A ++ inorder B ++ inorder C :=
      List.mem_append_left _ (List.mem_append_right _ hmoved.mem)
    obtain ⟨l, hl⟩ := hmoved.exists_links hmoved.mem
    obtain ⟨k, hk, -⟩ := exists_node hl
    exact ⟨h.pivot_ne (List.mem_append_left _ hB), h.rising_ne (List.mem_append_left _ hB),
      h.parent_ne hB, k, hk⟩
  · intro p hp
    have habove := h.above
    rw [hp] at habove
    obtain ⟨hmem, l, hl⟩ := habove.parent_mem
    obtain ⟨k, hk, -⟩ := exists_node hl
    exact ⟨h.pivot_ne (List.mem_append_right _ hmem), h.rising_ne (List.mem_append_right _ hmem),
      k, hk⟩

end Site

end UnixCodes.RBTree
