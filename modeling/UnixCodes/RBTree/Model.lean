import Mathlib.Logic.Function.Basic
import UnixCodes.Lib.PointerTree

/-! The rotations of `overflow_uint64.c`. -/
namespace UnixCodes.RBTree

open PointerTree

universe u v

/-- A node; `α` are the addresses, and `κ` what `key` points to. -/
structure RBTreeNode (α : Type u) (κ : Type v) where
  color : UInt8
  key : κ
  left : Option α
  right : Option α
  parent : Option α

namespace RBTreeNode

variable {α : Type u} {κ : Type v}

def links (n : RBTreeNode α κ) : Links α := ⟨n.left, n.right, n.parent⟩

def child (n : RBTreeNode α κ) : Side → Option α
  | .left => n.left
  | .right => n.right

def setChild (n : RBTreeNode α κ) (s : Side) (q : Option α) : RBTreeNode α κ :=
  match s with
  | .left => { n with left := q }
  | .right => { n with right := q }

def setParent (n : RBTreeNode α κ) (p : Option α) : RBTreeNode α κ := { n with parent := p }

end RBTreeNode

/-- The nodes in memory and the tree `T`; what is not allocated is `none`. -/
structure Memory (α : Type u) (κ : Type v) where
  node : α → Option (RBTreeNode α κ)
  root : Option α
  count : UInt64

variable {α : Type u} {κ : Type v} [DecidableEq α]

namespace Memory

/-- A write to a node, which fails where there is none. -/
def store (m : Memory α κ) (a : α) (f : RBTreeNode α κ → RBTreeNode α κ) :
    Option (Memory α κ) := do
  let n ← m.node a
  some { m with node := Function.update m.node a (some (f n)) }

def links (m : Memory α κ) (a : α) : Option (Links α) := (m.node a).map RBTreeNode.links

end Memory

/-- The subtree at `q`, if there is one, gets the parent `node`. -/
def adopt (m : Memory α κ) (q : Option α) (node : α) : Option (Memory α κ) :=
  match q with
  | none => some m
  | some moved => m.store moved fun n => n.setParent (some node)

/-- `rising` takes the place of `node` below `parent`, or at the root. -/
def replace (m : Memory α κ) (parent : Option α) (node rising : α) : Option (Memory α κ) :=
  match parent with
  | none => some { m with root := some rising }
  | some parent => do
    if (← m.node parent).left = some node then
      m.store parent fun n => n.setChild .left (some rising)
    else m.store parent fun n => n.setChild .right (some rising)

/-- `rising`, which is the child of `node` on the side `s`, takes the place of `node`, and `node`
becomes its child on the other side. -/
def rotate (s : Side) (m : Memory α κ) (node : α) : Option (Memory α κ) := do
  match (← m.node node).child s with
  | none => some m
  | some rising =>
    let moved := (← m.node rising).child s.other
    let m ← m.store node fun n => n.setChild s moved
    let m ← adopt m ((← m.node rising).child s.other) node
    let parent := (← m.node node).parent
    let m ← m.store rising fun n => n.setParent parent
    let m ← replace m (← m.node node).parent node rising
    let m ← m.store rising fun n => n.setChild s.other (some node)
    m.store node fun n => n.setParent (some rising)

def leftRotate (m : Memory α κ) (node : α) : Option (Memory α κ) := rotate .right m node

def rightRotate (m : Memory α κ) (node : α) : Option (Memory α κ) := rotate .left m node

inductive Call (α : Type u)
  | leftRotate (node : α)
  | rightRotate (node : α)

namespace Call

def node : Call α → α
  | leftRotate x | rightRotate x => x

/-- The side of the child that rises. -/
def side : Call α → Side
  | leftRotate _ => .right
  | rightRotate _ => .left

def run (m : Memory α κ) : Call α → Option (Memory α κ)
  | leftRotate x => RBTree.leftRotate m x
  | rightRotate x => RBTree.rightRotate m x

end Call

/-- Calls one after the other. -/
def runCalls (m : Memory α κ) (calls : List (Call α)) : Option (Memory α κ) :=
  calls.foldlM Call.run m

end UnixCodes.RBTree
