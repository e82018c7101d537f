import Mathlib.Logic.Equiv.Basic
import UnixCodes.HeapSort.Exchange

/-! The exchange of two nodes as a renaming of the tree, and the exchange back. -/
namespace UnixCodes.HeapSort

open PointerTree

universe u

variable {α : Type u} [DecidableEq α] {m m' m'' : Memory α} {s : Side} {p c a b g : α}
  {n k : HeapNode α} {t A L R : BinaryTree α} {f : List (Frame α)}

/-- Of the positions in the tree only those of the two nodes change. -/
theorem map_swap (h : Site s m p c n k A L R f) :
    (plug (join s p (.node c L R) A) f).map (Equiv.swap p c) =
      plug (join s c (.node p L R) A) f := by
  have hnodup := h.nodup
  have hkeep : ∀ a ∈ inorder L ++ inorder R ++ inorder A ++ around f, Equiv.swap p c a = a :=
    fun a ha => Equiv.swap_apply_of_ne_of_ne (by grind) (by grind)
  simp only [List.forall_mem_append] at hkeep
  obtain ⟨⟨⟨hL, hR⟩, hA⟩, hf⟩ := hkeep
  rw [map_plug hf, map_join, BinaryTree.map, map_eq_self hL, map_eq_self hR, map_eq_self hA,
    Equiv.swap_apply_left, Equiv.swap_apply_right]

section Restored

variable (h : Site s m p c n k A L R f) (hsw : Swapped s m m' p c n k)
  (hsw' : Swapped s m' m'' c p (n.setChild s (some p)) (k.setParent (some c)))

include h hsw hsw'

theorem restored_sibling (hb : n.child s.other = some b) : m''.node b = m.node b := by
  obtain ⟨-, -, -, -, l, hl⟩ := h.apart.sibling b hb
  have hA := h.sibling
  rw [hb] at hA
  rw [hsw'.sibling b _ (by simpa using hb) (hsw.sibling b l hb hl), hl, ← hA.parent_eq hl]
  rfl

theorem restored_below {side : Side} (hb : k.child side = some b) : m''.node b = m.node b := by
  obtain ⟨-, -, -, -, l, hl⟩ := h.apart.below side b hb
  have hparent : l.parent = some c := by
    cases side with
    | left =>
      have hL := h.left
      rw [show k.left = some b from hb] at hL
      exact hL.parent_eq hl
    | right =>
      have hR := h.right
      rw [show k.right = some b from hb] at hR
      exact hR.parent_eq hl
  rw [hsw'.below side b _ (by simpa using hb) (hsw.below side b l hb hl), hl, ← hparent]
  rfl

theorem restored_elder (hg : n.parent = some g) : m''.node g = m.node g := by
  obtain ⟨-, -, l, hl⟩ := h.apart.elder g hg
  have habove := h.above
  rw [hg] at habove
  obtain ⟨side, hslot, hother⟩ := habove.slot hl
  rw [hsw'.elder g _ (by simpa using hg) (hsw.elder g l hg hl), hl]
  by_cases hleft : l.left = some p
  · rw [if_pos hleft]
    have hrisen : (HeapNode.setChild l .left (some c)).left = some c := rfl
    rw [if_pos hrisen, Option.some.injEq, ← hleft]
    rfl
  · rw [if_neg hleft]
    cases side with
    | left => exact absurd hslot hleft
    | right =>
      have hne : (HeapNode.setChild l .right (some c)).left ≠ some c := by
        intro hc
        have hnodup := h.nodup
        have haround := hother c hc
        grind
      have hright : l.right = some p := hslot
      rw [if_neg hne, Option.some.injEq, ← hright]
      rfl

theorem restored_max : m''.max = m.max := by
  rw [hsw'.max, hsw.max]
  cases hg : n.parent with
  | some g => simp [hg]
  | none =>
    have habove := h.above
    rw [hg] at habove
    cases f with
    | nil => simp [hg, habove.2]
    | cons fr f => cases habove.1

theorem restored : m'' = m := by
  have hnode : m''.node = m.node := by
    funext a
    by_cases hp : a = p
    · subst hp
      rw [hsw'.child, h.parent, Option.some.injEq, ← h.link]
      cases s <;> rfl
    by_cases hc : a = c
    · subst hc
      rw [hsw'.parent, h.child, Option.some.injEq, ← h.back]
      rfl
    by_cases hb : n.child s.other = some a
    · exact restored_sibling h hsw hsw' hb
    by_cases hk : ∃ side, k.child side = some a
    · obtain ⟨side, hk⟩ := hk
      exact restored_below h hsw hsw' hk
    by_cases hg : n.parent = some a
    · exact restored_elder h hsw hsw' hg
    · rw [not_exists] at hk
      rw [← hsw.others a hp hc hb hk hg]
      apply hsw'.others a hc hp
      · simpa using hb
      · simpa using hk
      · simpa using hg
  have hnelts : m''.nelts = m.nelts := hsw'.nelts.trans hsw.nelts
  calc
    m'' = ⟨m''.node, m''.max, m''.nelts⟩ := rfl
    _ = m := by rw [hnode, hnelts, restored_max h hsw hsw']

end Restored

/-- `swap_heap_node` exchanges the positions of a node and its child, and leads to a memory in
which the exchange back restores everything. -/
theorem site_swap (h : Site s m p c n k A L R f) :
    ∃ m', swapHeapNode m p c = some m' ∧ Swapped s m m' p c n k ∧
      WellFormed m' (plug (join s c (.node p L R) A) f) ∧ swapHeapNode m' c p = some m := by
  obtain ⟨m', hrun, hsw⟩ := swap_runs h.apart
  have hsite := exchanged_site h hsw
  obtain ⟨m'', hrun', hsw'⟩ := swap_runs hsite.apart
  rw [restored h hsw hsw'] at hrun'
  exact ⟨m', hrun, hsw, hsite.wellFormed, hrun'⟩

/-- In a well-formed heap a node and its child trade positions, every other node keeps its own,
and the call with the two nodes the other way round gives the heap back. -/
theorem swap_exchanges (h : WellFormed m t) (hp : p ∈ inorder t) :
    ∃ n, m.node p = some n ∧ ∀ c, n.left = some c ∨ n.right = some c →
      ∃ m', swapHeapNode m p c = some m' ∧ WellFormed m' (t.map (Equiv.swap p c)) ∧
        m'.nelts = m.nelts ∧ swapHeapNode m' c p = some m := by
  obtain ⟨n, hn, hplace⟩ := h.exists_place hp
  refine ⟨n, hn, fun c hc => ?_⟩
  obtain ⟨s, hs⟩ : ∃ s, n.child s = some c := by
    rcases hc with hc | hc
    · exact ⟨.left, hc⟩
    · exact ⟨.right, hc⟩
  obtain ⟨A, L, R, f, rfl⟩ := hplace s c hs
  obtain ⟨n', k, hsite⟩ := h.exists_site
  obtain ⟨m', hrun, hsw, hwf, hback⟩ := site_swap hsite
  exact ⟨m', hrun, map_swap hsite ▸ hwf, hsw.nelts, hback⟩

/-- A root with two children, one of which has a child. -/
def fourNodes : Memory ℕ where
  node
    | 0 => some ⟨some 1, some 2, none⟩
    | 1 => some ⟨none, some 3, some 0⟩
    | 2 => some ⟨none, none, some 0⟩
    | 3 => some ⟨none, none, some 1⟩
    | _ => none
  max := some 0
  nelts := 4

theorem fourNodes_wellFormed :
    WellFormed fourNodes (.node 0 (.node 1 .nil (.node 3 .nil .nil)) (.node 2 .nil .nil)) := by
  refine ⟨⟨rfl, _, rfl, rfl, ⟨rfl, _, rfl, rfl, rfl, ?_⟩, ?_⟩, by decide⟩
  · exact ⟨rfl, _, rfl, rfl, rfl, rfl⟩
  · exact ⟨rfl, _, rfl, rfl, rfl, rfl⟩

theorem swap_exchanges_four :
    ∃ m', swapHeapNode fourNodes 0 1 = some m' ∧
      WellFormed m' (.node 1 (.node 0 .nil (.node 3 .nil .nil)) (.node 2 .nil .nil)) ∧
      swapHeapNode m' 1 0 = some fourNodes := by
  obtain ⟨n, hn, hswap⟩ := swap_exchanges fourNodes_wellFormed (p := 0) (by decide)
  obtain rfl := Option.some.inj hn
  obtain ⟨m', hrun, hwf, -, hback⟩ := hswap 1 (.inl rfl)
  exact ⟨m', hrun, hwf, hback⟩

end UnixCodes.HeapSort
