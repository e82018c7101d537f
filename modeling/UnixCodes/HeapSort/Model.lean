import Mathlib.Logic.Function.Basic
import UnixCodes.Lib.PointerTree

/-! `max_heapify` and `swap_heap_node` of `head_sort.c`. The root field, which the file declares as
`max` and writes as `min`, is `max` here. -/
namespace UnixCodes.HeapSort

open PointerTree

universe u

/-- `struct heap_node` is nothing but its three pointers; what they compare is around them. -/
abbrev HeapNode (α : Type u) := Links α

namespace HeapNode

variable {α : Type u}

def setChild (n : HeapNode α) (s : Side) (q : Option α) : HeapNode α :=
  match s with
  | .left => { n with left := q }
  | .right => { n with right := q }

def setParent (n : HeapNode α) (p : Option α) : HeapNode α := { n with parent := p }

end HeapNode

/-- The nodes in memory and the `struct heap`; what is not allocated is `none`. -/
structure Memory (α : Type u) where
  node : α → Option (HeapNode α)
  max : Option α
  nelts : UInt32

variable {α : Type u} [DecidableEq α]

/-- A write to a node, which fails where there is none. -/
def Memory.write (m : Memory α) (a : α) (f : HeapNode α → HeapNode α) : Option (Memory α) := do
  let n ← m.node a
  some { m with node := Function.update m.node a (some (f n)) }

/-- The node at `q`, if there is one, gets the parent `node`. -/
def adopt (m : Memory α) (q : Option α) (node : α) : Option (Memory α) :=
  match q with
  | none => some m
  | some q => m.write q fun n => HeapNode.setParent n (some node)

/-- `child` takes the place of `parent` below `elder`, or at the root. -/
def replace (m : Memory α) (elder : Option α) (parent child : α) : Option (Memory α) :=
  match elder with
  | none => some { m with max := some child }
  | some elder => do
    if (← m.node elder).left = some parent then
      m.write elder fun n => HeapNode.setChild n .left (some child)
    else m.write elder fun n => HeapNode.setChild n .right (some child)

def swapHeapNode (m : Memory α) (parent child : α) : Option (Memory α) := do
  let t ← m.node parent
  let n ← m.node child
  let m ← m.write parent fun _ => n
  let m ← m.write child fun _ => t
  let m ← m.write parent fun n => HeapNode.setParent n (some child)
  -- By now `child` points to itself where it was below `parent`.
  let side := if (← m.node child).left = some child then Side.left else Side.right
  let m ← m.write child fun n => HeapNode.setChild n side (some parent)
  let sibling := (← m.node child).child side.other
  let m ← adopt m sibling child
  let m ← adopt m (← m.node parent).left parent
  let m ← adopt m (← m.node parent).right parent
  replace m (← m.node child).parent parent child

/-- A `heap_compare_fn`; the nodes may be NULL. -/
abbrev HeapCompareFn (α : Type u) := Option α → Option α → Int

/-- `tmp` after the two comparisons. -/
def chosen (hcf : HeapCompareFn α) (hn : α) (n : HeapNode α) : Option α :=
  let tmp := if hcf n.left (some hn) ≠ 0 then n.left else some hn
  if hcf n.right (some hn) ≠ 0 then n.right else tmp

/-- With the number of calls that may still be made. -/
def maxHeapify (hcf : HeapCompareFn α) : ℕ → Memory α → Option α → Option (Memory α)
  | 0, _, _ => none
  | _ + 1, m, none => some m
  | calls + 1, m, some hn => do
    match chosen hcf hn (← m.node hn) with
    | none => none
    | some tmp =>
      if tmp = hn then some m
      else
        let m ← swapHeapNode m hn tmp
        maxHeapify hcf calls m (some tmp)

end UnixCodes.HeapSort
