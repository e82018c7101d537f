import UnixCodes.RBTree.Model

/-! What the rotations of `overflow_uint64.c` keep. -/
namespace UnixCodes.RBTree

open PointerTree

universe u v

variable {α : Type u} {κ : Type v} [DecidableEq α] {m m' : Memory α κ} {s : Side}
  {x y a : α} {n r k : RBTreeNode α κ} {p q : Option α}

namespace RBTreeNode

omit [DecidableEq α]

@[simp] theorem child_setChild : (n.setChild s q).child s = q := by cases s <;> rfl

@[simp] theorem child_other_setChild : (n.setChild s q).child s.other = n.child s.other := by
  cases s <;> rfl

@[simp] theorem child_setChild_other : (n.setChild s.other q).child s = n.child s := by
  cases s <;> rfl

@[simp] theorem parent_setChild : (n.setChild s q).parent = n.parent := by cases s <;> rfl

@[simp] theorem color_setChild : (n.setChild s q).color = n.color := by cases s <;> rfl

@[simp] theorem key_setChild : (n.setChild s q).key = n.key := by cases s <;> rfl

@[simp] theorem color_setParent : (n.setParent p).color = n.color := rfl

@[simp] theorem key_setParent : (n.setParent p).key = n.key := rfl

@[simp] theorem child_setParent : (n.setParent p).child s = n.child s := by cases s <;> rfl

@[simp] theorem parent_setParent : (n.setParent p).parent = p := rfl

@[simp] theorem links_child : n.links.child s = n.child s := by cases s <;> rfl

@[simp] theorem links_parent : n.links.parent = n.parent := rfl

end RBTreeNode

/-- What a rotation has done to `x`, with the contents `n`, whose child `y` with the contents `r`
has risen. -/
structure Rotated (s : Side) (m m' : Memory α κ) (x y : α) (n r : RBTreeNode α κ) : Prop where
  pivot : m'.node x = some ((n.setChild s (r.child s.other)).setParent (some y))
  rising : m'.node y = some ((r.setParent n.parent).setChild s.other (some x))
  moved : ∀ b k, r.child s.other = some b → m.node b = some k →
    m'.node b = some (k.setParent (some x))
  parent : ∀ p k, n.parent = some p → m.node p = some k → m'.node p =
    some (if k.left = some x then k.setChild .left (some y) else k.setChild .right (some y))
  others : ∀ a, a ≠ x → a ≠ y → r.child s.other ≠ some a → n.parent ≠ some a →
    m'.node a = m.node a
  root : m'.root = if n.parent = none then some y else m.root
  count : m'.count = m.count

/-- The nodes that a rotation touches are there, and different. -/
structure Apart (s : Side) (m : Memory α κ) (x y : α) (n r : RBTreeNode α κ) : Prop where
  pivot : m.node x = some n
  rising : m.node y = some r
  child : n.child s = some y
  ne : x ≠ y
  moved : ∀ b, r.child s.other = some b →
    b ≠ x ∧ b ≠ y ∧ n.parent ≠ some b ∧ ∃ k, m.node b = some k
  parent : ∀ p, n.parent = some p → p ≠ x ∧ p ≠ y ∧ ∃ k, m.node p = some k

/-- Of the nodes only the one at `q` is changed, by `f`. -/
structure Changed (m m' : Memory α κ) (q : Option α) (f : RBTreeNode α κ → RBTreeNode α κ) :
    Prop where
  node : ∀ b k, q = some b → m.node b = some k → m'.node b = some (f k)
  others : ∀ a, q ≠ some a → m'.node a = m.node a
  count : m'.count = m.count

omit [DecidableEq α] in
theorem Changed.of_ne {f : RBTreeNode α κ → RBTreeNode α κ} (h : Changed m m' (some a) f)
    (hx : x ≠ a) : m'.node x = m.node x :=
  h.others x fun he => hx (Option.some.inj he).symm

omit [DecidableEq α] in
theorem changed_none (root : Option α) (f : RBTreeNode α κ → RBTreeNode α κ) :
    Changed m { m with root := root } none f :=
  ⟨by simp, fun _ _ => rfl, rfl⟩

theorem store_runs (h : m.node a = some n) (f : RBTreeNode α κ → RBTreeNode α κ) :
    ∃ m', m.store a f = some m' ∧ Changed m m' (some a) f ∧ m'.root = m.root := by
  refine ⟨{ m with node := Function.update m.node a (some (f n)) }, ?_, ⟨?_, ?_, rfl⟩, rfl⟩
  · simp only [Memory.store, h, Option.bind_eq_bind, Option.bind_some]
  · rintro b k ⟨⟩ hk
    rw [h] at hk
    cases hk
    exact Function.update_self ..
  · intro b hb
    exact Function.update_of_ne (fun he => hb (by rw [he])) ..

theorem adopt_runs (h : ∀ b, q = some b → ∃ k, m.node b = some k) :
    ∃ m', adopt m q x = some m' ∧ Changed m m' q (·.setParent (some x)) ∧ m'.root = m.root := by
  cases q with
  | none => exact ⟨m, rfl, changed_none m.root _, rfl⟩
  | some b =>
    obtain ⟨k, hk⟩ := h b rfl
    exact store_runs hk _

theorem replace_runs (h : ∀ b, p = some b → ∃ k, m.node b = some k) :
    ∃ m', replace m p x y = some m' ∧
      Changed m m' p (fun k =>
        if k.left = some x then k.setChild .left (some y) else k.setChild .right (some y)) ∧
      m'.root = if p = none then some y else m.root := by
  cases p with
  | none => exact ⟨_, rfl, changed_none _ _, rfl⟩
  | some b =>
    obtain ⟨k, hk⟩ := h b rfl
    obtain ⟨m', hrun, ⟨hnode, hothers, hcount⟩, hroot⟩ := store_runs hk fun k =>
      if k.left = some x then k.setChild .left (some y) else k.setChild .right (some y)
    refine ⟨m', ?_, ⟨hnode, hothers, hcount⟩, hroot⟩
    rw [← hrun]
    simp only [replace, Memory.store, hk, Option.bind_eq_bind, Option.bind_some]
    split <;> rfl

theorem rotate_runs (h : Apart s m x y n r) :
    ∃ m', rotate s m x = some m' ∧ Rotated s m m' x y n r := by
  obtain ⟨hx, hy, hchild, hne, hmoved, hparent⟩ := h
  have hqx : r.child s.other ≠ some x := fun hb => (hmoved x hb).1 rfl
  have hqy : r.child s.other ≠ some y := fun hb => (hmoved y hb).2.1 rfl
  have hpx : n.parent ≠ some x := fun hp => (hparent x hp).1 rfl
  have hpy : n.parent ≠ some y := fun hp => (hparent y hp).2.1 rfl
  -- The child pointer of the pivot.
  obtain ⟨m₁, hrun₁, hch₁, hroot₁⟩ := store_runs hx fun n => n.setChild s (r.child s.other)
  have hx₁ := hch₁.node x n rfl hx
  have hy₁ := (hch₁.of_ne hne.symm).trans hy
  -- The parent pointer of the moved subtree.
  have hmoved₁ : ∀ b, r.child s.other = some b → ∃ k, m₁.node b = some k := by
    intro b hb
    obtain ⟨hbx, -, -, hk⟩ := hmoved b hb
    rw [hch₁.of_ne hbx]
    exact hk
  obtain ⟨m₂, hrun₂, hch₂, hroot₂⟩ := adopt_runs (x := x) hmoved₁
  have hx₂ := (hch₂.others x hqx).trans hx₁
  have hy₂ := (hch₂.others y hqy).trans hy₁
  -- The parent pointer of the rising node.
  obtain ⟨m₃, hrun₃, hch₃, hroot₃⟩ := store_runs hy₂ fun k => k.setParent n.parent
  have hx₃ := (hch₃.of_ne hne).trans hx₂
  have hy₃ := hch₃.node y r rfl hy₂
  -- The pointer from above.
  have hp₃ (p : α) (hp : n.parent = some p) : m₃.node p = m.node p := by
    obtain ⟨hpx', hpy', -⟩ := hparent p hp
    have hmp : r.child s.other ≠ some p := fun hb => (hmoved p hb).2.2.1 hp
    exact (hch₃.of_ne hpy').trans ((hch₂.others p hmp).trans (hch₁.of_ne hpx'))
  have hparent₃ : ∀ p, n.parent = some p → ∃ k, m₃.node p = some k := by
    intro p hp
    rw [hp₃ p hp]
    exact (hparent p hp).2.2
  obtain ⟨m₄, hrun₄, hch₄, hroot₄⟩ := replace_runs (x := x) (y := y) hparent₃
  have hx₄ := (hch₄.others x hpx).trans hx₃
  have hy₄ := (hch₄.others y hpy).trans hy₃
  -- The two pointers between the pivot and the rising node.
  obtain ⟨m₅, hrun₅, hch₅, hroot₅⟩ := store_runs hy₄ fun k => k.setChild s.other (some x)
  have hx₅ := (hch₅.of_ne hne).trans hx₄
  obtain ⟨m₆, hrun₆, hch₆, hroot₆⟩ := store_runs hx₅ fun k => k.setParent (some y)
  refine ⟨m₆, ?_, hch₆.node x _ rfl hx₅, ?_, ?_, ?_, ?_, ?_, ?_⟩
  · simp only [rotate, Option.bind_eq_bind, Option.bind_some, hx, hy, hchild, hrun₁, hy₁, hrun₂,
      hx₂, RBTreeNode.parent_setChild, hrun₃, hx₃, hrun₄, hrun₅, hrun₆]
  · exact (hch₆.of_ne hne.symm).trans (hch₅.node y _ rfl hy₄)
  · intro b k hb hk
    obtain ⟨hbx, hby, hbp, -⟩ := hmoved b hb
    rw [hch₆.of_ne hbx, hch₅.of_ne hby, hch₄.others b hbp, hch₃.of_ne hby]
    exact hch₂.node b k hb ((hch₁.of_ne hbx).trans hk)
  · intro p k hp hk
    obtain ⟨hpx', hpy', -⟩ := hparent p hp
    rw [hch₆.of_ne hpx', hch₅.of_ne hpy']
    exact hch₄.node p k hp ((hp₃ p hp).trans hk)
  · intro a hax hay haq hap
    rw [hch₆.of_ne hax, hch₅.of_ne hay, hch₄.others a hap, hch₃.of_ne hay, hch₂.others a haq,
      hch₁.of_ne hax]
  · rw [hroot₆, hroot₅, hroot₄, hroot₃, hroot₂, hroot₁]
  · rw [hch₆.count, hch₅.count, hch₄.count, hch₃.count, hch₂.count, hch₁.count]

end UnixCodes.RBTree
