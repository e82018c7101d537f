import UnixCodes.HeapSort.Swap

/-! `swap_heap_node` exchanges a node and its child, and nothing else. -/
namespace UnixCodes.HeapSort

open PointerTree

universe u

variable {α : Type u} {m m' m'' : Memory α} {s : Side} {p c a b : α} {n k : HeapNode α}
  {t A L R : BinaryTree α} {f : List (Frame α)}

/-- The nodes at the root field are the finite binary tree `t`: the child and the parent pointers
agree, and no node is at two places. -/
structure WellFormed (m : Memory α) (t : BinaryTree α) : Prop where
  holds : Holds m.node none m.max t
  nodup : (inorder t).Nodup

/-- The place of an exchange: `p` below the frames `f`, its child `c` on the side `s` with the
subtrees `L` and `R`, and the other subtree `A` of `p`. -/
structure Site (s : Side) (m : Memory α) (p c : α) (n k : HeapNode α) (A L R : BinaryTree α)
    (f : List (Frame α)) : Prop where
  parent : m.node p = some n
  child : m.node c = some k
  link : n.child s = some c
  back : k.parent = some p
  above : HoldsAround m.node m.max n.parent (some p) f
  sibling : Holds m.node (some p) (n.child s.other) A
  left : Holds m.node (some c) k.left L
  right : Holds m.node (some c) k.right R
  nodup : (p :: c :: (inorder L ++ inorder R ++ inorder A ++ around f)).Nodup

theorem site_perm (s : Side) (p c : α) (A L R : BinaryTree α) (f : List (Frame α)) :
    (inorder (plug (join s p (.node c L R) A) f)).Perm
      (p :: c :: (inorder L ++ inorder R ++ inorder A ++ around f)) := by
  have hinner : (inorder (.node c L R) ++ inorder A).Perm
      (c :: (inorder L ++ inorder R ++ inorder A)) :=
    List.perm_middle.append_right (inorder A)
  have houter := (inorder_join_perm s p (.node c L R) A).trans (hinner.cons p)
  exact (inorder_plug_perm _ f).trans (houter.append_right (around f))

theorem WellFormed.exists_site (h : WellFormed m (plug (join s p (.node c L R) A) f)) :
    ∃ n k, Site s m p c n k A L R f := by
  obtain ⟨e, q, habove, hparent⟩ := holds_plug.mp h.holds
  obtain ⟨rfl, n, hn, rfl, hchild, hA⟩ := holds_join.mp hparent
  obtain ⟨hlink, k, hk, hback, hL, hR⟩ := hchild
  exact ⟨n, k, hn, hk, hlink, hback, habove, hA, hL, hR, (site_perm ..).nodup_iff.mp h.nodup⟩

/-- A node with a child is at the place of an exchange. -/
theorem WellFormed.exists_place (h : WellFormed m t) (hp : p ∈ inorder t) :
    ∃ n, m.node p = some n ∧ ∀ s c, n.child s = some c →
      ∃ A L R f, t = plug (join s p (.node c L R) A) f := by
  obtain ⟨l, r, f, rfl⟩ := exists_plug hp
  obtain ⟨e, q, -, hparent⟩ := holds_plug.mp h.holds
  obtain ⟨-, n, hn, -⟩ := hparent
  refine ⟨n, hn, fun s c hc => ?_⟩
  obtain ⟨u, A, hjoin⟩ := join_eq_node s p l r
  rw [hjoin] at h ⊢
  obtain ⟨e, q, -, hparent⟩ := holds_plug.mp h.holds
  obtain ⟨-, n', hn', -, hu, -⟩ := holds_join.mp hparent
  obtain rfl := Option.some.inj (hn.symm.trans hn')
  rw [hc] at hu
  cases u with
  | nil => cases hu
  | node c' L R =>
    obtain ⟨hc', -⟩ := hu
    obtain rfl := Option.some.inj hc'
    exact ⟨A, L, R, f, rfl⟩

namespace Site

theorem mem_sibling (h : Site s m p c n k A L R f) (hb : n.child s.other = some b) :
    b ∈ inorder A := by
  have hA := h.sibling
  rw [hb] at hA
  exact hA.mem

theorem mem_left (h : Site s m p c n k A L R f) (hb : k.left = some b) : b ∈ inorder L := by
  have hL := h.left
  rw [hb] at hL
  exact hL.mem

theorem mem_right (h : Site s m p c n k A L R f) (hb : k.right = some b) : b ∈ inorder R := by
  have hR := h.right
  rw [hb] at hR
  exact hR.mem

theorem mem_elder (h : Site s m p c n k A L R f) (hb : n.parent = some b) :
    b ∈ around f ∧ ∃ l, m.node b = some l := by
  have habove := h.above
  rw [hb] at habove
  exact habove.parent_mem

/-! The two nodes and the four parts around them have no node in common. -/

theorem ne (h : Site s m p c n k A L R f)
    (hb : b ∈ inorder L ∨ b ∈ inorder R ∨ b ∈ inorder A ∨ b ∈ around f) : b ≠ p ∧ b ≠ c := by
  have hnodup := h.nodup
  grind

theorem ne_sibling (h : Site s m p c n k A L R f)
    (hb : b ∈ inorder L ∨ b ∈ inorder R ∨ b ∈ around f) : n.child s.other ≠ some b := by
  intro he
  have hmem := h.mem_sibling he
  have hnodup := h.nodup
  grind

theorem ne_left (h : Site s m p c n k A L R f)
    (hb : b ∈ inorder R ∨ b ∈ inorder A ∨ b ∈ around f) : k.left ≠ some b := by
  intro he
  have hmem := h.mem_left he
  have hnodup := h.nodup
  grind

theorem ne_right (h : Site s m p c n k A L R f)
    (hb : b ∈ inorder L ∨ b ∈ inorder A ∨ b ∈ around f) : k.right ≠ some b := by
  intro he
  have hmem := h.mem_right he
  have hnodup := h.nodup
  grind

theorem ne_below (h : Site s m p c n k A L R f) (hb : b ∈ inorder A ∨ b ∈ around f) (side : Side) :
    k.child side ≠ some b := by
  cases side with
  | left => exact h.ne_left (.inr hb)
  | right => exact h.ne_right (.inr hb)

theorem ne_elder (h : Site s m p c n k A L R f)
    (hb : b ∈ inorder L ∨ b ∈ inorder R ∨ b ∈ inorder A) : n.parent ≠ some b := by
  intro he
  have hmem := (h.mem_elder he).1
  have hnodup := h.nodup
  grind

theorem nodup_parts (h : Site s m p c n k A L R f) : (inorder L).Nodup ∧ (inorder R).Nodup ∧
    (inorder A).Nodup ∧ (around f).Nodup ∧ p ∉ around f := by
  have hnodup := h.nodup
  grind

theorem apart (h : Site s m p c n k A L R f) : Apart s m p c n k := by
  refine ⟨h.parent, h.child, h.link, ?_, ?_, ?_, ?_, ?_⟩
  · intro hc
    exact (h.ne (.inr (.inr (.inl (h.mem_sibling hc))))).2 rfl
  · have hnodup := h.nodup
    grind
  · intro b hb
    have hmem := h.mem_sibling hb
    obtain ⟨hp, hc⟩ := h.ne (.inr (.inr (.inl hmem)))
    exact ⟨hp, hc, h.ne_below (.inl hmem), h.ne_elder (.inr (.inr hmem)),
      h.sibling.exists_links hmem⟩
  · intro side b hb
    cases side with
    | left =>
      have hmem := h.mem_left hb
      obtain ⟨hp, hc⟩ := h.ne (.inl hmem)
      exact ⟨hp, hc, h.ne_right (.inl hmem), h.ne_elder (.inl hmem), h.left.exists_links hmem⟩
    | right =>
      have hmem := h.mem_right hb
      obtain ⟨hp, hc⟩ := h.ne (.inr (.inl hmem))
      exact ⟨hp, hc, h.ne_left (.inl hmem), h.ne_elder (.inr (.inl hmem)),
        h.right.exists_links hmem⟩
  · intro g hg
    obtain ⟨helder, hl⟩ := h.mem_elder hg
    obtain ⟨hp, hc⟩ := h.ne (.inr (.inr (.inr helder)))
    exact ⟨hp, hc, hl⟩

end Site

section Exchanged

variable [DecidableEq α] (h : Site s m p c n k A L R f) (hsw : Swapped s m m' p c n k)

include h hsw

/-- Below the two nodes only the roots of the three subtrees are touched. -/
theorem below_same (ha : a ∈ inorder L ∨ a ∈ inorder R ∨ a ∈ inorder A)
    (hs : n.child s.other ≠ some a) (hleft : k.left ≠ some a) (hright : k.right ≠ some a) :
    m'.node a = m.node a := by
  obtain ⟨hp, hc⟩ := h.ne (by tauto)
  refine hsw.others a hp hc hs ?_ (h.ne_elder ha)
  intro side
  cases side with
  | left => exact hleft
  | right => exact hright

theorem sibling_holds : Holds m'.node (some c) (n.child s.other) A := by
  refine h.sibling.reparent h.nodup_parts.2.2.1 ?_ ?_
  · intro b l hb hl
    exact hsw.sibling b l hb hl
  · intro b hb hne
    exact below_same h hsw (.inr (.inr hb)) hne (h.ne_left (.inr (.inl hb)))
      (h.ne_right (.inr (.inl hb)))

theorem left_holds : Holds m'.node (some p) k.left L := by
  refine h.left.reparent h.nodup_parts.1 ?_ ?_
  · intro b l hb hl
    exact hsw.below .left b l hb hl
  · intro b hb hne
    exact below_same h hsw (.inl hb) (h.ne_sibling (.inl hb)) hne (h.ne_right (.inl hb))

theorem right_holds : Holds m'.node (some p) k.right R := by
  refine h.right.reparent h.nodup_parts.2.1 ?_ ?_
  · intro b l hb hl
    exact hsw.below .right b l hb hl
  · intro b hb hne
    exact below_same h hsw (.inr (.inl hb)) (h.ne_sibling (.inr (.inl hb)))
      (h.ne_left (.inl hb)) hne

theorem above_holds : HoldsAround m'.node m'.max n.parent (some c) f := by
  obtain ⟨-, -, -, hnodup, hp⟩ := h.nodup_parts
  refine h.above.relink hnodup hsw.max ?_ ?_
  · intro fr l hg hl hchild hsibling hf
    refine ⟨_, hsw.elder fr.node l hg hl, ?_⟩
    cases hs : fr.side with
    | left =>
      rw [hs] at hchild
      have hleft : l.left = some p := hchild
      rw [if_pos hleft]
      exact ⟨rfl, rfl, rfl⟩
    | right =>
      -- `p` is not on the left as well.
      have hleft : l.left ≠ some p := by
        intro hleft
        have hchild' : l.child fr.side.other = some p := by
          rw [hs]
          exact hleft
        rw [hchild'] at hsibling
        exact hp (List.mem_flatMap.mpr ⟨fr, hf, List.mem_cons_of_mem _ hsibling.mem⟩)
      rw [if_neg hleft]
      exact ⟨rfl, rfl, rfl⟩
  · intro b hb hne
    obtain ⟨hp', hc⟩ := h.ne (.inr (.inr (.inr hb)))
    exact hsw.others b hp' hc (h.ne_sibling (.inr (.inr hb))) (h.ne_below (.inr hb)) hne

/-- The place of an exchange is afterwards the place of the exchange back. -/
theorem exchanged_site :
    Site s m' c p (n.setChild s (some p)) (k.setParent (some c)) A L R f := by
  have hleft := left_holds h hsw
  have hright := right_holds h hsw
  refine ⟨hsw.child, hsw.parent, ?_, rfl, ?_, ?_, hleft, hright, ?_⟩
  · simp
  · simpa using above_holds h hsw
  · simpa using sibling_holds h hsw
  · have hnodup := h.nodup
    grind

end Exchanged

theorem Site.wellFormed (h : Site s m p c n k A L R f) :
    WellFormed m (plug (join s p (.node c L R) A) f) := by
  refine ⟨holds_plug.mpr ⟨_, _, h.above, holds_join.mpr ?_⟩, (site_perm ..).nodup_iff.mpr h.nodup⟩
  exact ⟨rfl, n, h.parent, rfl, ⟨h.link, k, h.child, h.back, h.left, h.right⟩, h.sibling⟩

end UnixCodes.HeapSort
