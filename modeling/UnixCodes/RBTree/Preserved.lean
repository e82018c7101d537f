import UnixCodes.RBTree.WellFormed

/-! Rotations keep the tree, over any sequence of calls. -/
namespace UnixCodes.RBTree

open PointerTree

universe u v

variable {α : Type u} {κ : Type v} [DecidableEq α] {m m' m'' : Memory α κ} {s : Side}
  {x y a : α} {n r : RBTreeNode α κ} {t t' t'' A B C : BinaryTree α} {c : List (Frame α)}

section Tree

variable (h : Site s m x y n r A B C c) (hrot : Rotated s m m' x y n r)

include h hrot

theorem sibling_same (ha : a ∈ inorder A) : m'.node a = m.node a := by
  have hin : a ∈ inorder A ++ inorder B ++ inorder C := by simp [ha]
  exact hrot.others a (h.pivot_ne (List.mem_append_left _ hin))
    (h.rising_ne (List.mem_append_left _ hin)) (h.moved_ne (Or.inl ha)) (h.parent_ne hin)

theorem outer_same (ha : a ∈ inorder C) : m'.node a = m.node a := by
  have hin : a ∈ inorder A ++ inorder B ++ inorder C := by simp [ha]
  exact hrot.others a (h.pivot_ne (List.mem_append_left _ hin))
    (h.rising_ne (List.mem_append_left _ hin)) (h.moved_ne (Or.inr (Or.inl ha))) (h.parent_ne hin)

theorem moved_holds : Holds m'.links (some x) (r.child s.other) B := by
  have hnodup : (inorder B).Nodup := by
    have hall := (List.nodup_cons.mp (List.nodup_cons.mp h.nodup).2).2
    simp only [List.nodup_append] at hall
    exact hall.1.1.2.1
  refine h.moved.reparent hnodup ?_ ?_
  · intro b l hb hl
    obtain ⟨k, hk, rfl⟩ := exists_node hl
    rw [links_eq (hrot.moved b k hb hk)]
    rfl
  · intro b hb hne
    have hin : b ∈ inorder A ++ inorder B ++ inorder C := by simp [hb]
    exact links_congr (hrot.others b (h.pivot_ne (List.mem_append_left _ hin))
      (h.rising_ne (List.mem_append_left _ hin)) hne (h.parent_ne hin))

/-- The pointer to the pivot, in its parent or at the root, is to the rising node now. -/
theorem above_holds : HoldsAround m'.links m'.root n.parent (some y) c := by
  have hnodup : (around c).Nodup := by
    have hall := (List.nodup_cons.mp (List.nodup_cons.mp h.nodup).2).2
    exact (List.nodup_append.mp hall).2.1
  refine h.above.relink hnodup hrot.root ?_ ?_
  · intro f l hp hl hchild hsibling hf
    obtain ⟨k, hk, rfl⟩ := exists_node hl
    rw [RBTreeNode.links_child] at hchild hsibling
    have hm' := hrot.parent f.node k hp hk
    -- The pivot is not on the other side of its parent.
    have hother : k.child f.side.other ≠ some x := by
      intro hx
      rw [hx] at hsibling
      have hmem : x ∈ around c := by
        refine List.mem_flatMap.mpr ⟨f, hf, List.mem_cons_of_mem _ hsibling.mem⟩
      exact (h.pivot_ne (List.mem_append_right _ hmem)) rfl
    refine ⟨_, links_eq hm', ?_⟩
    cases hs : f.side with
    | left =>
      rw [hs] at hchild
      have hleft : k.left = some x := hchild
      rw [if_pos hleft]
      exact ⟨rfl, rfl, rfl⟩
    | right =>
      rw [hs] at hother
      have hleft : k.left ≠ some x := hother
      rw [if_neg hleft]
      exact ⟨rfl, rfl, rfl⟩
  · intro a ha hp
    refine links_congr (hrot.others a (h.pivot_ne (List.mem_append_right _ ha))
      (h.rising_ne (List.mem_append_right _ ha)) (h.moved_ne (Or.inr (Or.inr ha))) hp)

theorem rotated_wellFormed : WellFormed m' (plug (join s y C (join s x B A)) c) := by
  have hA : Holds m'.links (some x) (n.child s.other) A :=
    h.sibling.congr fun a ha => links_congr (sibling_same h hrot ha)
  have hC : Holds m'.links (some y) (r.child s) C :=
    h.outer.congr fun a ha => links_congr (outer_same h hrot ha)
  have hpivot : Holds m'.links (some y) (some x) (join s x B A) := by
    refine holds_join.mpr ⟨rfl, _, links_eq hrot.pivot, ?_, ?_, ?_⟩
    · simp
    · simpa using moved_holds h hrot
    · simpa using hA
  have hrising : Holds m'.links n.parent (some y) (join s y C (join s x B A)) := by
    refine holds_join.mpr ⟨rfl, _, links_eq hrot.rising, ?_, ?_, ?_⟩
    · simp
    · simpa using hC
    · simpa using hpivot
  refine ⟨holds_plug.mpr ⟨_, _, above_holds h hrot, hrising⟩, ?_⟩
  have hsame := inorder_plug_congr (inorder_rotate s x y C B A) c
  rw [hsame]
  exact (site_perm ..).nodup_iff.mpr h.nodup

end Tree

/-- What every call keeps: `t` is the tree before, and `t'` the tree after. -/
structure Preserves (m m' : Memory α κ) (t t' : BinaryTree α) : Prop where
  wellFormed : WellFormed m' t'
  inorder : inorder t' = inorder t
  contents : ∀ a, (m'.node a).map (fun n => (n.color, n.key)) =
    (m.node a).map (fun n => (n.color, n.key))
  count : m'.count = m.count

/-- The nodes whose pointers a call may change. -/
inductive Touched (m : Memory α κ) (call : Call α) : α → Prop
  | pivot : Touched m call call.node
  | rising {n : RBTreeNode α κ} {y : α} :
      m.node call.node = some n → n.child call.side = some y → Touched m call y
  | moved {n r : RBTreeNode α κ} {y b : α} :
      m.node call.node = some n → n.child call.side = some y → m.node y = some r →
      r.child call.side.other = some b → Touched m call b
  | parent {n : RBTreeNode α κ} {p : α} :
      m.node call.node = some n → n.parent = some p → Touched m call p

omit [DecidableEq α] in
theorem Preserves.refl (h : WellFormed m t) : Preserves m m t t := ⟨h, rfl, fun _ => rfl, rfl⟩

omit [DecidableEq α] in
theorem Preserves.trans (h : Preserves m m' t t') (h' : Preserves m' m'' t' t'') :
    Preserves m m'' t t'' :=
  ⟨h'.wellFormed, h'.inorder.trans h.inorder, fun a => (h'.contents a).trans (h.contents a),
    h'.count.trans h.count⟩

theorem rotated_contents (h : Apart s m x y n r) (hrot : Rotated s m m' x y n r) (a : α) :
    (m'.node a).map (fun n => (n.color, n.key)) = (m.node a).map (fun n => (n.color, n.key)) := by
  by_cases hx : a = x
  · subst hx
    rw [hrot.pivot, h.pivot]
    simp
  by_cases hy : a = y
  · subst hy
    rw [hrot.rising, h.rising]
    simp
  by_cases hb : r.child s.other = some a
  · obtain ⟨-, -, -, k, hk⟩ := h.moved a hb
    rw [hrot.moved a k hb hk, hk]
    simp
  by_cases hp : n.parent = some a
  · obtain ⟨-, -, k, hk⟩ := h.parent a hp
    rw [hrot.parent a k hp hk, hk]
    split <;> simp
  · rw [hrot.others a hx hy hb hp]

/-- A call where the child is there. -/
theorem site_preserves (h : Site s m x y n r A B C c) :
    ∃ m', rotate s m x = some m' ∧ Rotated s m m' x y n r ∧
      Preserves m m' (plug (join s x (join s y C B) A) c)
        (plug (join s y C (join s x B A)) c) := by
  obtain ⟨m', hrun, hrot⟩ := rotate_runs h.apart
  exact ⟨m', hrun, hrot, rotated_wellFormed h hrot,
    inorder_plug_congr (inorder_rotate s x y C B A) c, rotated_contents h.apart hrot, hrot.count⟩

theorem rotate_of_child_eq_none (hx : m.node x = some n) (hchild : n.child s = none) :
    rotate s m x = some m := by
  simp only [rotate, hx, hchild, Option.bind_eq_bind, Option.bind_some]

theorem run_eq_rotate (m : Memory α κ) (call : Call α) :
    call.run m = rotate call.side m call.node := by
  cases call <;> rfl

theorem call_preserves (h : WellFormed m t) (call : Call α) (hnode : call.node ∈ inorder t) :
    ∃ n m' t', m.node call.node = some n ∧ call.run m = some m' ∧ Preserves m m' t t' ∧
      (n.child call.side = none → m' = m) ∧ ∀ a, ¬ Touched m call a → m'.node a = m.node a := by
  rw [run_eq_rotate]
  obtain ⟨n, hn, hnone | ⟨y, A, B, C, c, hchild, rfl⟩⟩ := h.exists_place call.side hnode
  · exact ⟨n, m, t, hn, rotate_of_child_eq_none hn hnone, Preserves.refl h, fun _ => rfl,
      fun _ _ => rfl⟩
  · obtain ⟨n', r, hsite⟩ := h.exists_site
    have hn' := hsite.pivot
    rw [hn] at hn'
    cases hn'
    obtain ⟨m', hrun, hrot, hkept⟩ := site_preserves hsite
    refine ⟨n, m', _, hn, hrun, hkept, ?_, ?_⟩
    · intro hnone
      rw [hchild] at hnone
      cases hnone
    · intro a ha
      refine hrot.others a ?_ ?_ ?_ ?_
      · rintro rfl
        exact ha .pivot
      · rintro rfl
        exact ha (.rising hn hchild)
      · intro hb
        exact ha (.moved hn hchild hsite.rising hb)
      · intro hp
        exact ha (.parent hn hp)

theorem runCalls_preserves (h : WellFormed m t) (calls : List (Call α))
    (hnodes : ∀ call ∈ calls, call.node ∈ inorder t) :
    ∃ m' t', runCalls m calls = some m' ∧ Preserves m m' t t' := by
  induction calls generalizing m t with
  | nil => exact ⟨m, t, rfl, Preserves.refl h⟩
  | cons call calls ih =>
    obtain ⟨hfirst, hrest⟩ := List.forall_mem_cons.mp hnodes
    obtain ⟨-, m₁, t₁, -, hrun, hkept, -⟩ := call_preserves h call hfirst
    rw [← hkept.inorder] at hrest
    obtain ⟨m', t', hruns, hkept'⟩ := ih hkept.wellFormed hrest
    refine ⟨m', t', ?_, hkept.trans hkept'⟩
    rw [runCalls, List.foldlM_cons, hrun]
    exact hruns

/-- Every `leftRotate` and `rightRotate` on a node of a well-formed tree keeps the tree, its nodes
and their order, and so does every sequence of them. -/
theorem rotations_preserve (h : WellFormed m t) :
    (∀ call : Call α, call.node ∈ inorder t →
      ∃ n m' t', m.node call.node = some n ∧ call.run m = some m' ∧ Preserves m m' t t' ∧
        (n.child call.side = none → m' = m) ∧ ∀ a, ¬ Touched m call a → m'.node a = m.node a) ∧
    ∀ calls : List (Call α), (∀ call ∈ calls, call.node ∈ inorder t) →
      ∃ m' t', runCalls m calls = some m' ∧ Preserves m m' t t' :=
  ⟨call_preserves h, runCalls_preserves h⟩

/-- A black root and its two red children. -/
def threeNodes : Memory ℕ String where
  node
    | 0 => some ⟨66, "b", some 1, some 2, none⟩
    | 1 => some ⟨82, "a", none, none, some 0⟩
    | 2 => some ⟨82, "c", none, none, some 0⟩
    | _ => none
  root := some 0
  count := 3

theorem threeNodes_wellFormed :
    WellFormed threeNodes (.node 0 (.node 1 .nil .nil) (.node 2 .nil .nil)) := by
  refine ⟨⟨rfl, _, rfl, rfl, ?_, ?_⟩, by decide⟩
  · exact ⟨rfl, _, rfl, rfl, rfl, rfl⟩
  · exact ⟨rfl, _, rfl, rfl, rfl, rfl⟩

theorem rotations_preserve_three : ∃ m' t',
    runCalls threeNodes [.leftRotate 0, .leftRotate 2, .rightRotate 0] = some m' ∧
      Preserves threeNodes m' (.node 0 (.node 1 .nil .nil) (.node 2 .nil .nil)) t' :=
  (rotations_preserve threeNodes_wellFormed).2 _ (by decide)

end UnixCodes.RBTree
