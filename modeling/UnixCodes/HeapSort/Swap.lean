import UnixCodes.HeapSort.Model
import UnixCodes.Lib.Writes

/-! The pointer writes of `swap_heap_node`. -/
namespace UnixCodes.HeapSort

open PointerTree

universe u

variable {α : Type u} [DecidableEq α] {m m' : Memory α} {s side : Side} {p c a b g : α}
  {n k l : HeapNode α} {q e : Option α}

namespace HeapNode

omit [DecidableEq α]

@[simp] theorem child_setChild : (n.setChild s q).child s = q := by cases s <;> rfl

@[simp] theorem child_other_setChild : (n.setChild s q).child s.other = n.child s.other := by
  cases s <;> rfl

@[simp] theorem parent_setChild : (n.setChild s q).parent = n.parent := by cases s <;> rfl

@[simp] theorem child_setParent : (n.setParent q).child s = n.child s := by cases s <;> rfl

@[simp] theorem left_setParent : (n.setParent q).left = n.left := rfl

@[simp] theorem right_setParent : (n.setParent q).right = n.right := rfl

@[simp] theorem parent_setParent : (n.setParent q).parent = q := rfl

end HeapNode

/-- Only the node at `q` is changed, by `f`. -/
structure Wrote (m m' : Memory α) (q : Option α) (f : HeapNode α → HeapNode α) : Prop where
  changed : Changed m.node m'.node q f
  nelts : m'.nelts = m.nelts

/-- What `swap_heap_node` has done to `p`, with the contents `n`, and to its child `c` on the side
`s`, with the contents `k`. -/
structure Swapped (s : Side) (m m' : Memory α) (p c : α) (n k : HeapNode α) : Prop where
  parent : m'.node p = some (k.setParent (some c))
  child : m'.node c = some (n.setChild s (some p))
  sibling : ∀ b l, n.child s.other = some b → m.node b = some l →
    m'.node b = some (HeapNode.setParent l (some c))
  below : ∀ side b l, k.child side = some b → m.node b = some l →
    m'.node b = some (HeapNode.setParent l (some p))
  elder : ∀ g l, n.parent = some g → m.node g = some l → m'.node g = some
    (if l.left = some p then HeapNode.setChild l .left (some c)
      else HeapNode.setChild l .right (some c))
  others : ∀ a, a ≠ p → a ≠ c → n.child s.other ≠ some a → (∀ side, k.child side ≠ some a) →
    n.parent ≠ some a → m'.node a = m.node a
  max : m'.max = if n.parent = none then some c else m.max
  nelts : m'.nelts = m.nelts

/-- The nodes that `swap_heap_node` touches are there, and different. -/
structure Apart (s : Side) (m : Memory α) (p c : α) (n k : HeapNode α) : Prop where
  parent : m.node p = some n
  child : m.node c = some k
  link : n.child s = some c
  other : n.child s.other ≠ some c
  ne : p ≠ c
  sibling : ∀ b, n.child s.other = some b →
    b ≠ p ∧ b ≠ c ∧ (∀ side, k.child side ≠ some b) ∧ n.parent ≠ some b ∧ ∃ l, m.node b = some l
  below : ∀ side b, k.child side = some b →
    b ≠ p ∧ b ≠ c ∧ k.child side.other ≠ some b ∧ n.parent ≠ some b ∧ ∃ l, m.node b = some l
  elder : ∀ g, n.parent = some g → g ≠ p ∧ g ≠ c ∧ ∃ l, m.node g = some l

theorem write_runs (h : m.node a = some n) (f : HeapNode α → HeapNode α) :
    ∃ m', m.write a f = some m' ∧ Wrote m m' (some a) f ∧ m'.max = m.max := by
  refine ⟨{ m with node := Function.update m.node a (some (f n)) }, ?_,
    ⟨changed_update h f, rfl⟩, rfl⟩
  simp only [Memory.write, h, Option.bind_eq_bind, Option.bind_some]

theorem adopt_runs (h : ∀ b, q = some b → ∃ l, m.node b = some l) :
    ∃ m', adopt m q a = some m' ∧ Wrote m m' q (HeapNode.setParent · (some a)) ∧
      m'.max = m.max := by
  cases q with
  | none => exact ⟨m, rfl, ⟨changed_none _ _, rfl⟩, rfl⟩
  | some b =>
    obtain ⟨l, hl⟩ := h b rfl
    exact write_runs hl _

theorem replace_runs (h : ∀ b, e = some b → ∃ l, m.node b = some l) :
    ∃ m', replace m e p c = some m' ∧
      Wrote m m' e (fun l => if l.left = some p then HeapNode.setChild l .left (some c)
        else HeapNode.setChild l .right (some c)) ∧
      m'.max = if e = none then some c else m.max := by
  cases e with
  | none => exact ⟨_, rfl, ⟨changed_none _ _, rfl⟩, rfl⟩
  | some b =>
    obtain ⟨l, hl⟩ := h b rfl
    obtain ⟨m', hrun, hwrote, hmax⟩ := write_runs hl fun l =>
      if l.left = some p then HeapNode.setChild l .left (some c)
        else HeapNode.setChild l .right (some c)
    refine ⟨m', ?_, hwrote, hmax⟩
    rw [← hrun]
    simp only [replace, Memory.write, hl, Option.bind_eq_bind, Option.bind_some]
    split <;> rfl

/-- The test of `child->left` finds the side on which `child` was. -/
theorem side_eq (hlink : n.child s = some c) (hother : n.child s.other ≠ some c) :
    (if n.left = some c then Side.left else Side.right) = s := by
  cases s with
  | left => exact if_pos hlink
  | right => exact if_neg hother

theorem swap_runs (h : Apart s m p c n k) :
    ∃ m', swapHeapNode m p c = some m' ∧ Swapped s m m' p c n k := by
  obtain ⟨hp, hc, hlink, hother, hne, hsibling, hbelow, helder⟩ := h
  have hqp : n.child s.other ≠ some p := fun hb => (hsibling p hb).1 rfl
  have hkp (side : Side) : k.child side ≠ some p := fun hb => (hbelow side p hb).1 rfl
  have hkc (side : Side) : k.child side ≠ some c := fun hb => (hbelow side c hb).2.1 rfl
  have hgp : n.parent ≠ some p := fun hg => (helder p hg).1 rfl
  have hgc : n.parent ≠ some c := fun hg => (helder c hg).2.1 rfl
  -- The exchange of the contents.
  obtain ⟨m₁, hrun₁, ⟨hch₁, hnelts₁⟩, hmax₁⟩ := write_runs hp fun _ => k
  have hp₁ := hch₁.block p n rfl hp
  have hc₁ := (hch₁.of_ne hne.symm).trans hc
  obtain ⟨m₂, hrun₂, ⟨hch₂, hnelts₂⟩, hmax₂⟩ := write_runs hc₁ fun _ => n
  have hp₂ := (hch₂.of_ne hne).trans hp₁
  have hc₂ := hch₂.block c k rfl hc₁
  -- The two pointers between the nodes.
  obtain ⟨m₃, hrun₃, ⟨hch₃, hnelts₃⟩, hmax₃⟩ := write_runs hp₂ (HeapNode.setParent · (some c))
  have hp₃ := hch₃.block p k rfl hp₂
  have hc₃ := (hch₃.of_ne hne.symm).trans hc₂
  obtain ⟨m₄, hrun₄, ⟨hch₄, hnelts₄⟩, hmax₄⟩ := write_runs hc₃ (HeapNode.setChild · s (some p))
  have hp₄ := (hch₄.of_ne hne).trans hp₃
  have hc₄ := hch₄.block c n rfl hc₃
  have hout₄ (a : α) (hap : a ≠ p) (hac : a ≠ c) : m₄.node a = m.node a := by
    rw [hch₄.of_ne hac, hch₃.of_ne hap, hch₂.of_ne hac, hch₁.of_ne hap]
  -- The parent pointers of the sibling and of the children of `c`.
  have hsibling₄ : ∀ b, n.child s.other = some b → ∃ l, m₄.node b = some l := by
    intro b hb
    obtain ⟨hbp, hbc, -, -, hl⟩ := hsibling b hb
    rw [hout₄ b hbp hbc]
    exact hl
  obtain ⟨m₅, hrun₅, ⟨hch₅, hnelts₅⟩, hmax₅⟩ := adopt_runs (a := c) hsibling₄
  have hp₅ := (hch₅.others p hqp).trans hp₄
  have hc₅ := (hch₅.others c hother).trans hc₄
  have hbelow₅ (side : Side) (b : α) (hb : k.child side = some b) : m₅.node b = m.node b := by
    obtain ⟨hbp, hbc, -⟩ := hbelow side b hb
    have hbs : n.child s.other ≠ some b := fun hs => (hsibling b hs).2.2.1 side hb
    rw [hch₅.others b hbs, hout₄ b hbp hbc]
  have hleft₅ : ∀ b, k.left = some b → ∃ l, m₅.node b = some l := by
    intro b hb
    rw [hbelow₅ .left b hb]
    exact (hbelow .left b hb).2.2.2.2
  obtain ⟨m₆, hrun₆, ⟨hch₆, hnelts₆⟩, hmax₆⟩ := adopt_runs (a := p) hleft₅
  have hp₆ := (hch₆.others p (hkp .left)).trans hp₅
  have hc₆ := (hch₆.others c (hkc .left)).trans hc₅
  have hright₆ : ∀ b, k.right = some b → ∃ l, m₆.node b = some l := by
    intro b hb
    rw [hch₆.others b (hbelow .right b hb).2.2.1, hbelow₅ .right b hb]
    exact (hbelow .right b hb).2.2.2.2
  obtain ⟨m₇, hrun₇, ⟨hch₇, hnelts₇⟩, hmax₇⟩ := adopt_runs (a := p) hright₆
  have hp₇ := (hch₇.others p (hkp .right)).trans hp₆
  have hc₇ := (hch₇.others c (hkc .right)).trans hc₆
  -- The pointer from above.
  have helder₇ (g : α) (hg : n.parent = some g) : m₇.node g = m.node g := by
    obtain ⟨hgp', hgc', -⟩ := helder g hg
    have hkg (side : Side) : k.child side ≠ some g := fun hb => (hbelow side g hb).2.2.2.1 hg
    have hsg : n.child s.other ≠ some g := fun hb => (hsibling g hb).2.2.2.1 hg
    rw [hch₇.others g (hkg .right), hch₆.others g (hkg .left), hch₅.others g hsg,
      hout₄ g hgp' hgc']
  have hthere₇ : ∀ g, n.parent = some g → ∃ l, m₇.node g = some l := by
    intro g hg
    rw [helder₇ g hg]
    exact (helder g hg).2.2
  obtain ⟨m₈, hrun₈, ⟨hch₈, hnelts₈⟩, hmax₈⟩ := replace_runs (p := p) (c := c) hthere₇
  refine ⟨m₈, ?_, (hch₈.others p hgp).trans hp₇, (hch₈.others c hgc).trans hc₇, ?_, ?_, ?_, ?_,
    ?_, ?_⟩
  · simp only [swapHeapNode, Option.bind_eq_bind, Option.bind_some, hp, hc, hrun₁, hrun₂, hrun₃,
      hc₃, side_eq hlink hother, hrun₄, hc₄, HeapNode.child_other_setChild, hrun₅, hp₅,
      HeapNode.left_setParent, hrun₆, hp₆, HeapNode.right_setParent, hrun₇, hc₇,
      HeapNode.parent_setChild, hrun₈]
  · intro b l hb hl
    obtain ⟨hbp, hbc, hkb, hgb, -⟩ := hsibling b hb
    rw [hch₈.others b hgb, hch₇.others b (hkb .right), hch₆.others b (hkb .left)]
    exact hch₅.block b l hb ((hout₄ b hbp hbc).trans hl)
  · intro side b l hb hl
    obtain ⟨hbp, hbc, hkb, hgb, -⟩ := hbelow side b hb
    rw [hch₈.others b hgb]
    have hbefore := (hbelow₅ side b hb).trans hl
    cases side with
    | left =>
      rw [hch₇.others b hkb]
      exact hch₆.block b l hb hbefore
    | right => exact hch₇.block b l hb ((hch₆.others b hkb).trans hbefore)
  · intro g l hg hl
    exact hch₈.block g l hg ((helder₇ g hg).trans hl)
  · intro a hap hac has hak hag
    rw [hch₈.others a hag, hch₇.others a (hak .right), hch₆.others a (hak .left),
      hch₅.others a has, hout₄ a hap hac]
  · rw [hmax₈, hmax₇, hmax₆, hmax₅, hmax₄, hmax₃, hmax₂, hmax₁]
  · rw [hnelts₈, hnelts₇, hnelts₆, hnelts₅, hnelts₄, hnelts₃, hnelts₂, hnelts₁]

end UnixCodes.HeapSort
