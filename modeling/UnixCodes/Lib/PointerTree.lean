import Mathlib.Data.List.Nodup
import Mathlib.Data.Tree.Basic

/-! Binary trees in a memory of records that point to their children and to their parent, and
rotations of binary trees. -/
namespace UnixCodes.PointerTree

universe u

variable {α : Type u}

inductive Side
  | left
  | right
  deriving DecidableEq

def Side.other : Side → Side
  | left => right
  | right => left

/-- The pointers of a record; the null pointer is `none`. -/
structure Links (α : Type u) where
  left : Option α
  right : Option α
  parent : Option α

def Links.child (k : Links α) : Side → Option α
  | .left => k.left
  | .right => k.right

/-- The nodes of a tree from left to right. -/
def inorder : BinaryTree α → List α
  | .nil => []
  | .node a l r => inorder l ++ a :: inorder r

/-- A node with the subtree `t` on the side `s`, and `u` on the other. -/
def join (s : Side) (a : α) (t u : BinaryTree α) : BinaryTree α :=
  match s with
  | .left => .node a t u
  | .right => .node a u t

/-- A tree without its nodes. -/
def shape (t : BinaryTree α) : BinaryTree Unit := t.map fun _ => ()

/-- In the memory `h` the pointer `q` is to the tree `t`, whose root has the parent `p`. -/
def Holds (h : α → Option (Links α)) (p q : Option α) : BinaryTree α → Prop
  | .nil => q = none
  | .node a l r => q = some a ∧ ∃ k, h a = some k ∧ k.parent = p ∧
      Holds h (some a) k.left l ∧ Holds h (some a) k.right r

/-- A node above a place in a tree: the place is on the side `side` of it. -/
structure Frame (α : Type u) where
  node : α
  side : Side
  sibling : BinaryTree α

/-- The tree with `t` at the place below the frames, the innermost frame first. -/
def plug (t : BinaryTree α) : List (Frame α) → BinaryTree α
  | [] => t
  | f :: c => plug (join f.side f.node t f.sibling) c

/-- The nodes around a place. -/
def around (c : List (Frame α)) : List α := c.flatMap fun f => f.node :: inorder f.sibling

/-- The memory holds the frames of a tree at `root`; at their place is the pointer `q`, and `p` is
the node above it. -/
def HoldsAround (h : α → Option (Links α)) (root p q : Option α) : List (Frame α) → Prop
  | [] => p = none ∧ root = q
  | f :: c => p = some f.node ∧ ∃ k, h f.node = some k ∧ k.child f.side = q ∧
      Holds h (some f.node) (k.child f.side.other) f.sibling ∧
      HoldsAround h root k.parent (some f.node) c

variable {h h' : α → Option (Links α)} {p p' q q' root root' : Option α} {s : Side} {a x y : α}
  {t u v w : BinaryTree α} {c d : List (Frame α)}

theorem join_eq_node (s : Side) (a : α) (l r : BinaryTree α) :
    ∃ t u, BinaryTree.node a l r = join s a t u := by
  cases s with
  | left => exact ⟨l, r, rfl⟩
  | right => exact ⟨r, l, rfl⟩

theorem holds_join : Holds h p q (join s a t u) ↔ q = some a ∧ ∃ k, h a = some k ∧ k.parent = p ∧
    Holds h (some a) (k.child s) t ∧ Holds h (some a) (k.child s.other) u := by
  cases s with
  | left => exact Iff.rfl
  | right =>
    refine and_congr_right fun _ => exists_congr fun k => and_congr_right fun _ =>
      and_congr_right fun _ => and_comm

theorem Side.other_other (s : Side) : s.other.other = s := by
  cases s <;> rfl

theorem join_other (s : Side) (a : α) (t u : BinaryTree α) : join s.other a t u = join s a u t := by
  cases s <;> rfl

theorem inorder_join_perm (s : Side) (a : α) (t u : BinaryTree α) :
    (inorder (join s a t u)).Perm (a :: (inorder t ++ inorder u)) := by
  cases s with
  | left => exact List.perm_middle
  | right => exact List.perm_middle.trans (List.perm_append_comm.cons a)

/-- A tree is where its pointer says, and is empty only for the null pointer. -/
theorem Holds.mem (ht : Holds h p (some a) t) : a ∈ inorder t := by
  cases t with
  | nil => cases ht
  | node b l r =>
    obtain ⟨hq, -⟩ := ht
    rw [Option.some.inj hq]
    exact List.mem_append_right _ List.mem_cons_self

/-- The nodes of a tree are in memory. -/
theorem Holds.exists_links (ht : Holds h p q t) (ha : a ∈ inorder t) : ∃ k, h a = some k := by
  induction t generalizing p q with
  | nil => cases ha
  | node b l r ihl ihr =>
    obtain ⟨-, k, hk, -, hl, hr⟩ := ht
    rcases List.mem_append.mp ha with ha | ha
    · exact ihl hl ha
    · rcases List.mem_cons.mp ha with rfl | ha
      · exact ⟨k, hk⟩
      · exact ihr hr ha

/-- The pointers determine the tree. -/
theorem Holds.unique (ht : Holds h p q t) (hu : Holds h p' q u) : t = u := by
  induction t generalizing p p' q u with
  | nil =>
    cases u with
    | nil => rfl
    | node b l r => cases (show none = q from ht.symm).trans hu.1
  | node a l r ihl ihr =>
    obtain ⟨rfl, k, hk, -, hl, hr⟩ := ht
    cases u with
    | nil => cases hu
    | node b l' r' =>
      obtain ⟨hq, k', hk', -, hl', hr'⟩ := hu
      obtain rfl := Option.some.inj hq
      obtain rfl := Option.some.inj (hk.symm.trans hk')
      rw [ihl hl hl', ihr hr hr']

theorem Holds.parent_eq (ht : Holds h p (some a) t) {k : Links α} (hk : h a = some k) :
    k.parent = p := by
  cases t with
  | nil => cases ht
  | node b l r =>
    obtain ⟨hq, k', hk', hp, -⟩ := ht
    obtain rfl := Option.some.inj hq
    obtain rfl := Option.some.inj (hk.symm.trans hk')
    exact hp

theorem Holds.exists_join (s : Side) (ht : Holds h p (some a) t) : ∃ u v, t = join s a u v := by
  cases t with
  | nil => cases ht
  | node b l r =>
    obtain ⟨hq, -⟩ := ht
    rw [Option.some.inj hq]
    exact join_eq_node s b l r

/-- A tree only depends on its own nodes. -/
theorem Holds.congr (ht : Holds h p q t) (hsame : ∀ a ∈ inorder t, h' a = h a) :
    Holds h' p q t := by
  induction t generalizing p q with
  | nil => exact ht
  | node a l r ihl ihr =>
    obtain ⟨hq, k, hk, hp, hl, hr⟩ := ht
    have ha : a ∈ inorder (.node a l r) := List.mem_append_right _ List.mem_cons_self
    refine ⟨hq, k, (hsame a ha).trans hk, hp, ihl hl ?_, ihr hr ?_⟩
    · intro b hb
      exact hsame b (List.mem_append_left _ hb)
    · intro b hb
      exact hsame b (List.mem_append_right _ (List.mem_cons_of_mem _ hb))

/-- A tree goes below another node when its root gets that node as its parent. -/
theorem Holds.reparent (ht : Holds h p q t) (hnodup : (inorder t).Nodup)
    (hroot : ∀ a k, q = some a → h a = some k → h' a = some { k with parent := p' })
    (hsame : ∀ a ∈ inorder t, q ≠ some a → h' a = h a) : Holds h' p' q t := by
  cases t with
  | nil => exact ht
  | node a l r =>
    obtain ⟨rfl, k, hk, hp, hl, hr⟩ := ht
    have hmiddle := List.nodup_middle.mp hnodup
    obtain ⟨hnot, -⟩ := List.nodup_cons.mp hmiddle
    refine ⟨rfl, _, hroot a k rfl hk, rfl, hl.congr ?_, hr.congr ?_⟩
    · intro b hb
      refine hsame b (List.mem_append_left _ hb) ?_
      rintro ⟨⟩
      exact hnot (List.mem_append_left _ hb)
    · intro b hb
      refine hsame b (List.mem_append_right _ (List.mem_cons_of_mem _ hb)) ?_
      rintro ⟨⟩
      exact hnot (List.mem_append_right _ hb)

theorem HoldsAround.congr (hc : HoldsAround h root p q c) (hsame : ∀ a ∈ around c, h' a = h a) :
    HoldsAround h' root p q c := by
  induction c generalizing p q with
  | nil => exact hc
  | cons f c ih =>
    obtain ⟨hp, k, hk, hq, hsibling, hrest⟩ := hc
    simp only [around, List.flatMap_cons, List.cons_append, List.forall_mem_cons,
      List.forall_mem_append] at hsame
    obtain ⟨hnode, hin, hout⟩ := hsame
    exact ⟨hp, k, hnode.trans hk, hq, hsibling.congr hin, ih hrest hout⟩

theorem around_cons (f : Frame α) (c : List (Frame α)) :
    around (f :: c) = f.node :: (inorder f.sibling ++ around c) := by
  simp [around]

theorem HoldsAround.parent_mem (hc : HoldsAround h root (some a) q c) :
    a ∈ around c ∧ ∃ k, h a = some k := by
  cases c with
  | nil => cases hc.1
  | cons f c =>
    obtain ⟨hp, k, hk, -⟩ := hc
    rw [Option.some.inj hp, around_cons]
    exact ⟨List.mem_cons_self, k, hk⟩

/-- The node above the place has it on one side, and on the other side another node. -/
theorem HoldsAround.slot (hc : HoldsAround h root (some a) q c) {k : Links α} (hk : h a = some k) :
    ∃ s, k.child s = q ∧ ∀ b, k.child s.other = some b → b ∈ around c := by
  cases c with
  | nil => cases hc.1
  | cons f c =>
    obtain ⟨hp, k', hk', hq, hsibling, -⟩ := hc
    obtain rfl := Option.some.inj hp
    obtain rfl := Option.some.inj (hk.symm.trans hk')
    refine ⟨f.side, hq, fun b hb => ?_⟩
    rw [hb] at hsibling
    rw [around_cons]
    exact List.mem_cons_of_mem _ (List.mem_append_left _ hsibling.mem)

/-- The pointer at the place may be changed in the node above it, or at the root. -/
theorem HoldsAround.relink (hc : HoldsAround h root p q c) (hnodup : (around c).Nodup)
    (hroot : root' = if p = none then q' else root)
    (hlink : ∀ f k, p = some f.node → h f.node = some k → k.child f.side = q →
      Holds h (some f.node) (k.child f.side.other) f.sibling → f ∈ c →
      ∃ k', h' f.node = some k' ∧ k'.child f.side = q' ∧
        k'.child f.side.other = k.child f.side.other ∧ k'.parent = k.parent)
    (hsame : ∀ a ∈ around c, p ≠ some a → h' a = h a) : HoldsAround h' root' p q' c := by
  cases c with
  | nil =>
    obtain ⟨rfl, -⟩ := hc
    exact ⟨rfl, hroot⟩
  | cons f c =>
    obtain ⟨rfl, k, hk, hq, hsibling, hrest⟩ := hc
    obtain ⟨k', hk', hchild, hother, hparent⟩ :=
      hlink f k rfl hk hq hsibling List.mem_cons_self
    rw [around_cons, List.nodup_cons] at hnodup
    simp only [around_cons, List.forall_mem_cons, List.forall_mem_append] at hsame
    obtain ⟨-, hin, hout⟩ := hsame
    have hne : ∀ b ∈ inorder f.sibling ++ around c, some f.node ≠ some b := by
      rintro b hb ⟨⟩
      exact hnodup.1 hb
    rw [hroot, if_neg (Option.some_ne_none _)]
    refine ⟨rfl, k', hk', hchild, ?_, ?_⟩
    · rw [hother]
      exact hsibling.congr fun b hb => hin b hb (hne b (List.mem_append_left _ hb))
    · rw [hparent]
      exact hrest.congr fun b hb => hout b hb (hne b (List.mem_append_right _ hb))

theorem plug_append (t : BinaryTree α) (c d : List (Frame α)) :
    plug t (c ++ d) = plug (plug t c) d := by
  induction c generalizing t with
  | nil => rfl
  | cons f c ih => exact ih _

/-- A tree is in memory if the part around a place is, and the part below it. -/
theorem holds_plug : Holds h none root (plug t c) ↔
    ∃ p q, HoldsAround h root p q c ∧ Holds h p q t := by
  induction c generalizing t with
  | nil =>
    constructor
    · intro ht
      exact ⟨none, root, ⟨rfl, rfl⟩, ht⟩
    · rintro ⟨p, q, ⟨rfl, rfl⟩, ht⟩
      exact ht
  | cons f c ih =>
    rw [plug, ih]
    constructor
    · rintro ⟨p, q, hc, hjoin⟩
      obtain ⟨rfl, k, hk, rfl, ht, hsibling⟩ := holds_join.mp hjoin
      exact ⟨some f.node, k.child f.side, ⟨rfl, k, hk, rfl, hsibling, hc⟩, ht⟩
    · rintro ⟨p, q, ⟨rfl, k, hk, rfl, hsibling, hc⟩, ht⟩
      exact ⟨k.parent, some f.node, hc, holds_join.mpr ⟨rfl, k, hk, rfl, ht, hsibling⟩⟩

/-- Every node of a tree has a place in it. -/
theorem exists_plug (hx : x ∈ inorder t) : ∃ l r c, t = plug (.node x l r) c := by
  induction t with
  | nil => cases hx
  | node a l r ihl ihr =>
    rcases List.mem_append.mp hx with hl | hr
    · obtain ⟨l', r', c, hc⟩ := ihl hl
      refine ⟨l', r', c ++ [⟨a, .left, r⟩], ?_⟩
      rw [plug_append, ← hc]
      rfl
    · rcases List.mem_cons.mp hr with rfl | hr
      · exact ⟨l, r, [], rfl⟩
      · obtain ⟨l', r', c, hc⟩ := ihr hr
        refine ⟨l', r', c ++ [⟨a, .right, l⟩], ?_⟩
        rw [plug_append, ← hc]
        rfl

theorem inorder_plug_perm (t : BinaryTree α) (c : List (Frame α)) :
    (inorder (plug t c)).Perm (inorder t ++ around c) := by
  induction c generalizing t with
  | nil => simp [plug, around]
  | cons f c ih =>
    have hjoin := (inorder_join_perm f.side f.node t f.sibling).append_right (around c)
    refine (ih _).trans (hjoin.trans ?_)
    simp only [around, List.flatMap_cons, List.cons_append, List.append_assoc]
    exact List.perm_middle.symm

theorem inorder_plug_congr (ht : inorder t = inorder u) (c : List (Frame α)) :
    inorder (plug t c) = inorder (plug u c) := by
  induction c generalizing t u with
  | nil => exact ht
  | cons f c ih =>
    refine ih ?_
    cases hs : f.side <;> simp [join, inorder, ht]

theorem shape_plug_congr (ht : shape t = shape u) (c : List (Frame α)) :
    shape (plug t c) = shape (plug u c) := by
  induction c generalizing t u with
  | nil => exact ht
  | cons f c ih =>
    refine ih ?_
    unfold shape at ht ⊢
    cases hs : f.side <;> simp [join, BinaryTree.map, ht]

/-- A rotation: the node `y` rises over `x`, and the subtree `u` moves from `y` to `x`. -/
theorem inorder_rotate (s : Side) (x y : α) (t u v : BinaryTree α) :
    inorder (join s y t (join s x u v)) = inorder (join s x (join s y t u) v) := by
  cases s <;> simp [join, inorder]

theorem map_eq_self {g : α → α} (hg : ∀ a ∈ inorder t, g a = a) : t.map g = t := by
  induction t with
  | nil => rfl
  | node a l r ihl ihr =>
    have ha : g a = a := hg a (List.mem_append_right _ List.mem_cons_self)
    have hl := ihl fun b hb => hg b (List.mem_append_left _ hb)
    have hr := ihr fun b hb => hg b (List.mem_append_right _ (List.mem_cons_of_mem _ hb))
    rw [BinaryTree.map, ha, hl, hr]

theorem map_join (g : α → α) (s : Side) (a : α) (t u : BinaryTree α) :
    (join s a t u).map g = join s (g a) (t.map g) (u.map g) := by
  cases s <;> rfl

/-- A renaming that keeps the nodes around a place acts at the place only. -/
theorem map_plug {g : α → α} (hg : ∀ a ∈ around c, g a = a) (t : BinaryTree α) :
    (plug t c).map g = plug (t.map g) c := by
  induction c generalizing t with
  | nil => rfl
  | cons f c ih =>
    rw [around_cons, List.forall_mem_cons, List.forall_mem_append] at hg
    obtain ⟨hnode, hsibling, hrest⟩ := hg
    rw [plug, plug, ih hrest, map_join, hnode, map_eq_self hsibling]

end UnixCodes.PointerTree
