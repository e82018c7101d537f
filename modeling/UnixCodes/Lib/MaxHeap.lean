import Mathlib.Data.Tree.Basic
import Mathlib.Order.Defs.Unbundled

/-! Binary trees in which no node is smaller than its children. -/
namespace UnixCodes.MaxHeap

universe u

variable {α : Type u} {gt : α → α → Prop} {a b c : α} {t l r : BinaryTree α}

/-- The node at the root of a tree. -/
def top : BinaryTree α → Option α
  | .nil => none
  | .node a _ _ => some a

/-- The root of the tree is larger than `a`. -/
def Larger (gt : α → α → Prop) (t : BinaryTree α) (a : α) : Prop := ∃ b, top t = some b ∧ gt b a

/-- No child of the root of the tree is larger than `a`. -/
def Covers (gt : α → α → Prop) (a : α) : BinaryTree α → Prop
  | .nil => True
  | .node _ l r => ¬ Larger gt l a ∧ ¬ Larger gt r a

/-- No node is smaller than a child of it. -/
def IsMaxHeap (gt : α → α → Prop) : BinaryTree α → Prop
  | .nil => True
  | .node a l r => (¬ Larger gt l a ∧ ¬ Larger gt r a) ∧ IsMaxHeap gt l ∧ IsMaxHeap gt r

@[simp] theorem larger_nil : ¬ Larger gt .nil a := by
  rintro ⟨b, hb, -⟩
  cases hb

@[simp] theorem larger_node : Larger gt (.node b l r) a ↔ gt b a := by
  constructor
  · rintro ⟨b', hb, h⟩
    obtain rfl := Option.some.inj hb
    exact h
  · intro h
    exact ⟨b, rfl, h⟩

/-- A smaller node is below a larger one. -/
theorem not_larger_node [IsStrictOrder α gt] (h : gt a b) : ¬ Larger gt (.node b l r) a :=
  fun hlarger => asymm h (larger_node.mp hlarger)

theorem Larger.trans [IsTrans α gt] (h : Larger gt t b) (hb : gt b a) : Larger gt t a := by
  obtain ⟨c, hc, hcb⟩ := h
  exact ⟨c, hc, IsTrans.trans c b a hcb hb⟩

/-- Another node in the place of the root makes a heap if it covers the children. -/
theorem isMaxHeap_replace (h : IsMaxHeap gt (.node c l r)) (a : α) :
    IsMaxHeap gt (.node a l r) ↔ Covers gt a (.node c l r) := by
  constructor
  · intro ha
    exact ha.1
  · intro ha
    exact ⟨ha, h.2⟩

end UnixCodes.MaxHeap
