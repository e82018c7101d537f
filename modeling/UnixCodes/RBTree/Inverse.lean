import UnixCodes.RBTree.Preserved

/-! The two rotations undo each other. -/
namespace UnixCodes.RBTree

open PointerTree

universe u v

variable {α : Type u} {κ : Type v} [DecidableEq α] {m m' m'' : Memory α κ} {s : Side}
  {x y p : α} {n r k : RBTreeNode α κ} {t A B C : BinaryTree α} {c : List (Frame α)}

namespace RBTreeNode

omit [DecidableEq α]

variable {q q' : Option α}

theorem pivot_restored :
    (((n.setChild s q).setParent q').setParent n.parent).setChild s (n.child s) = n := by
  cases s <;> rfl

theorem rising_restored :
    (((r.setParent q).setChild s.other q').setChild s.other (r.child s.other)).setParent r.parent =
      r := by
  cases s <;> rfl

end RBTreeNode

omit [DecidableEq α] in
theorem rising_parent (h : WellFormed m (plug (join s x (join s y C B) A) c))
    (hy : m.node y = some r) : r.parent = some x := by
  obtain ⟨p, q, -, hpivot⟩ := holds_plug.mp h.holds
  obtain ⟨-, k, -, -, hrising, -⟩ := holds_join.mp hpivot
  obtain ⟨hq, -⟩ := holds_join.mp hrising
  rw [hq] at hrising
  exact hrising.parent_eq (links_eq hy)

/-- The place of a rotation is afterwards the place of the opposite rotation. -/
theorem rotated_site (h : Site s m x y n r A B C c) (hrot : Rotated s m m' x y n r) :
    Site s.other m' y x ((r.setParent n.parent).setChild s.other (some x))
      ((n.setChild s (r.child s.other)).setParent (some y)) C B A c := by
  have hwf := rotated_wellFormed h hrot
  rw [← join_other, ← join_other s x] at hwf
  obtain ⟨n', r', hsite⟩ := hwf.exists_site
  have hn := hsite.pivot
  have hr := hsite.rising
  rw [hrot.rising, Option.some.injEq] at hn
  rw [hrot.pivot, Option.some.injEq] at hr
  rw [hn, hr]
  exact hsite

section Restored

variable (h : Site s m x y n r A B C c) (hrot : Rotated s m m' x y n r)
  (hrot' : Rotated s.other m' m'' y x ((r.setParent n.parent).setChild s.other (some x))
    ((n.setChild s (r.child s.other)).setParent (some y)))

include h hrot hrot'

theorem restored_moved {b : α} (hb : r.child s.other = some b) : m''.node b = m.node b := by
  obtain ⟨-, -, -, k, hk⟩ := h.apart.moved b hb
  have hmoved := hrot'.moved b (k.setParent (some x))
  rw [Side.other_other, RBTreeNode.child_setParent, RBTreeNode.child_setChild] at hmoved
  have hparent : k.parent = some y := by
    have hB := h.moved
    rw [hb] at hB
    exact hB.parent_eq (links_eq hk)
  rw [hmoved hb (hrot.moved b k hb hk), hk, ← hparent]
  rfl

theorem restored_parent (hp : n.parent = some p) : m''.node p = m.node p := by
  obtain ⟨-, -, k, hk⟩ := h.apart.parent p hp
  have habove := h.above
  rw [hp] at habove
  obtain ⟨side, hslot, hother⟩ := habove.slot (links_eq hk)
  have hafter := hrot.parent p k hp hk
  have hagain := hrot'.parent p _ (by simpa using hp) hafter
  rw [hagain, hk]
  by_cases hleft : k.left = some x
  · rw [if_pos hleft]
    have hrisen : (k.setChild .left (some y)).left = some y := rfl
    rw [if_pos hrisen, Option.some.injEq, ← hleft]
    rfl
  · rw [if_neg hleft]
    cases side with
    | left => exact absurd hslot hleft
    | right =>
      have hne : (k.setChild .right (some y)).left ≠ some y := by
        intro hy
        exact h.rising_ne (List.mem_append_right _ (hother y hy)) rfl
      have hright : k.right = some x := hslot
      rw [if_neg hne, Option.some.injEq, ← hright]
      rfl

theorem restored_root : m''.root = m.root := by
  rw [hrot'.root, hrot.root]
  cases hp : n.parent with
  | some p => simp
  | none =>
    have habove := h.above
    rw [hp] at habove
    cases c with
    | nil => simp [habove.2]
    | cons f c => cases habove.1

end Restored

/-- The opposite rotation at the node that has risen gives the memory back. -/
theorem rotate_rotate (hwf : WellFormed m (plug (join s x (join s y C B) A) c)) :
    ∃ m', rotate s m x = some m' ∧ rotate s.other m' y = some m := by
  obtain ⟨n, r, h⟩ := hwf.exists_site
  obtain ⟨m', hrun, hrot⟩ := rotate_runs h.apart
  obtain ⟨m'', hrun', hrot'⟩ := rotate_runs (rotated_site h hrot).apart
  refine ⟨m', hrun, ?_⟩
  suffices hsame : m'' = m by rw [hrun', hsame]
  have hnode : m''.node = m.node := by
    funext a
    by_cases hx : a = x
    · subst hx
      rw [hrot'.rising, h.pivot, Option.some.injEq, Side.other_other, RBTreeNode.parent_setChild,
        RBTreeNode.parent_setParent, ← h.child]
      exact RBTreeNode.pivot_restored
    by_cases hy : a = y
    · subst hy
      rw [hrot'.pivot, h.rising, Option.some.injEq, Side.other_other, RBTreeNode.child_setParent,
        RBTreeNode.child_setChild, ← rising_parent hwf h.rising]
      exact RBTreeNode.rising_restored
    by_cases hb : r.child s.other = some a
    · exact restored_moved h hrot hrot' hb
    by_cases hp : n.parent = some a
    · exact restored_parent h hrot hrot' hp
    · rw [← hrot.others a hx hy hb hp]
      apply hrot'.others a hy hx
      · simpa [Side.other_other] using hb
      · simpa using hp
  have hcount : m''.count = m.count := hrot'.count.trans hrot.count
  calc
    m'' = ⟨m''.node, m''.root, m''.count⟩ := rfl
    _ = m := by rw [hnode, hcount, restored_root h hrot hrot']

/-- With a right child `y` of `x`, `rightRotate` at `y` undoes `leftRotate` at `x`, and the other
way round with a left child. -/
theorem rotations_inverse (h : WellFormed m t) (hx : x ∈ inorder t) :
    ∃ n, m.node x = some n ∧
      (∀ y, n.right = some y →
        ∃ m', leftRotate m x = some m' ∧ rightRotate m' y = some m) ∧
      ∀ y, n.left = some y →
        ∃ m', rightRotate m x = some m' ∧ leftRotate m' y = some m := by
  have hside (s : Side) : ∃ n, m.node x = some n ∧ ∀ y, n.child s = some y →
      ∃ m', rotate s m x = some m' ∧ rotate s.other m' y = some m := by
    obtain ⟨n, hn, hnone | ⟨y, A, B, C, c, hchild, rfl⟩⟩ := h.exists_place s hx
    · refine ⟨n, hn, fun y hy => ?_⟩
      rw [hnone] at hy
      cases hy
    · refine ⟨n, hn, fun y' hy' => ?_⟩
      obtain rfl := Option.some.inj (hchild.symm.trans hy')
      exact rotate_rotate h
  obtain ⟨n, hn, hright⟩ := hside .right
  obtain ⟨n', hn', hleft⟩ := hside .left
  obtain rfl := Option.some.inj (hn.symm.trans hn')
  exact ⟨n, hn, hright, hleft⟩

theorem rotations_inverse_three : ∃ n, threeNodes.node 0 = some n ∧
    (∀ y, n.right = some y →
      ∃ m', leftRotate threeNodes 0 = some m' ∧ rightRotate m' y = some threeNodes) ∧
    ∀ y, n.left = some y →
      ∃ m', rightRotate threeNodes 0 = some m' ∧ leftRotate m' y = some threeNodes :=
  rotations_inverse threeNodes_wellFormed (by decide)

end UnixCodes.RBTree
