import Mathlib.Data.List.Basic

/-! Doubly linked lists in a heap: what the forward and backward links describe, and how the two
edits at the tail change it. -/
namespace UnixCodes.LinkedList

universe u
variable {α : Type u} {next next' prev prev' : α → Option α} {p q head tail : Option α}
  {a t z : α} {l l₁ l₂ : List α}

/-- Following `next` from `p` visits exactly `l`, in order, and arrives at `q`. -/
def Segment (next : α → Option α) : Option α → List α → Option α → Prop
  | p, [], q => p = q
  | p, a :: l, q => p = some a ∧ Segment next (next a) l q

@[simp] theorem segment_nil : Segment next p [] q ↔ p = q := Iff.rfl

@[simp] theorem segment_cons :
    Segment next p (a :: l) q ↔ p = some a ∧ Segment next (next a) l q := Iff.rfl

theorem segment_append :
    Segment next p (l₁ ++ l₂) q ↔ ∃ r, Segment next p l₁ r ∧ Segment next r l₂ q := by
  induction l₁ generalizing p with
  | nil => simp
  | cons a l₁ ih => simp [ih, and_assoc]

theorem segment_congr (h : ∀ a ∈ l, next' a = next a) (hs : Segment next p l q) :
    Segment next' p l q := by
  induction l generalizing p with
  | nil => exact hs
  | cons a l ih =>
    refine ⟨hs.1, ?_⟩
    rw [h a (by simp)]
    exact ih (fun b hb => h b (by simp [hb])) hs.2

/-- The links determine the nodes visited before NULL. -/
theorem segment_unique (h₁ : Segment next p l₁ none) (h₂ : Segment next p l₂ none) : l₁ = l₂ := by
  induction l₁ generalizing p l₂ with
  | nil =>
    cases l₂ with
    | nil => rfl
    | cons b l₂ => simp_all
  | cons a l₁ ih =>
    cases l₂ with
    | nil => simp_all
    | cons b l₂ =>
      obtain ⟨rfl, h₁⟩ := h₁
      obtain ⟨hb, h₂⟩ := h₂
      obtain rfl := Option.some.inj hb
      rw [ih h₁ h₂]

/-- A walk that ends at NULL never meets a node twice. -/
theorem segment_nodup (h : Segment next p l none) : l.Nodup := by
  induction l generalizing p with
  | nil => exact List.nodup_nil
  | cons a l ih =>
    refine List.nodup_cons.mpr ⟨?_, ih h.2⟩
    intro ha
    obtain ⟨l₁, l₂, rfl⟩ := List.append_of_mem ha
    obtain ⟨r, -, hr⟩ := segment_append.mp h.2
    have heq := segment_unique h.2 hr.2
    have hlen := congrArg List.length heq
    simp at hlen
    omega

theorem segment_last (h : Segment next p (l ++ [z]) none) : next z = none := by
  obtain ⟨r, -, hz⟩ := segment_append.mp h
  exact hz.2

/-- The links lead to nodes of the list only. -/
theorem mem_of_segment (h : Segment next p l none) :
    (∀ b, p = some b → b ∈ l) ∧ ∀ a ∈ l, ∀ b, next a = some b → b ∈ l := by
  induction l generalizing p with
  | nil =>
    refine ⟨?_, by simp⟩
    rintro b rfl
    cases h
  | cons a l ih =>
    obtain ⟨hfirst, hrest⟩ := ih h.2
    constructor
    · rintro b rfl
      obtain rfl := Option.some.inj h.1
      exact List.mem_cons_self
    · intro c hc b hb
      rcases List.mem_cons.mp hc with rfl | hc
      · exact List.mem_cons_of_mem _ (hfirst b hb)
      · exact List.mem_cons_of_mem _ (hrest c hc b hb)

/-- Linking `t` behind the last node `z`. -/
theorem segment_push (h : Segment next p (l ++ [z]) none) (hn : ∀ a ∈ l, next' a = next a)
    (hz : next' z = some t) (ht : next' t = none) : Segment next' p (l ++ [z] ++ [t]) none := by
  obtain ⟨r, hr, hzr⟩ := segment_append.mp h
  rw [List.append_assoc]
  refine segment_append.mpr ⟨r, segment_congr hn hr, hzr.1, ?_⟩
  simp [hz, ht]

theorem notMem_of_nodup_concat (h : (l ++ [z]).Nodup) : z ∉ l := by
  intro hz
  exact (List.nodup_append.mp h).2.2 z hz z (by simp) rfl

structure DoublyLinked (next prev : α → Option α) (head tail : Option α) (l : List α) : Prop where
  forward : Segment next head l none
  backward : Segment prev tail l.reverse none

theorem doublyLinked_nil : DoublyLinked next prev none none [] := ⟨rfl, rfl⟩

theorem DoublyLinked.unique (h₁ : DoublyLinked next prev head tail l₁)
    (h₂ : DoublyLinked next prev head tail l₂) : l₁ = l₂ :=
  segment_unique h₁.forward h₂.forward

theorem DoublyLinked.head_eq_none (h : DoublyLinked next prev head tail l) :
    head = none ↔ l = [] := by
  cases l with
  | nil => simpa using h.forward
  | cons a l => simp [h.forward.1]

theorem DoublyLinked.tail_eq (h : DoublyLinked next prev head tail (l ++ [z])) :
    tail = some z := by
  have hb := h.backward
  simp only [List.reverse_append, List.reverse_cons, List.reverse_nil, List.nil_append,
    List.singleton_append, segment_cons] at hb
  exact hb.1

theorem DoublyLinked.tail_eq_none (h : DoublyLinked next prev head tail l) :
    tail = none ↔ l = [] := by
  rcases List.eq_nil_or_concat' l with rfl | ⟨l, z, rfl⟩
  · simpa using h.backward
  · simp [h.tail_eq]

theorem DoublyLinked.next_tail (h : DoublyLinked next prev head tail l) (ht : tail = some z) :
    next z = none := by
  rcases List.eq_nil_or_concat' l with rfl | ⟨l, y, rfl⟩
  · simp [h.tail_eq_none.mpr rfl] at ht
  · obtain rfl := Option.some.inj (h.tail_eq.symm.trans ht)
    exact segment_last h.forward

theorem DoublyLinked.prev_head (h : DoublyLinked next prev head tail l) (ha : head = some a) :
    prev a = none := by
  cases l with
  | nil => simp [h.head_eq_none.mpr rfl] at ha
  | cons b l =>
    obtain rfl := Option.some.inj (h.forward.1.symm.trans ha)
    have hb := h.backward
    rw [List.reverse_cons] at hb
    exact segment_last hb

/-- A node outside the list is not pointed to from it. -/
theorem DoublyLinked.unreferenced (h : DoublyLinked next prev head tail l) (hz : z ∉ l) :
    head ≠ some z ∧ tail ≠ some z ∧ ∀ a ∈ l, next a ≠ some z ∧ prev a ≠ some z := by
  obtain ⟨hhead, hnext⟩ := mem_of_segment h.forward
  obtain ⟨htail, hprev⟩ := mem_of_segment h.backward
  simp only [List.mem_reverse] at htail hprev
  refine ⟨fun he => hz (hhead z he), fun he => hz (htail z he), fun a ha => ⟨?_, ?_⟩⟩
  · exact fun he => hz (hnext a ha z he)
  · exact fun he => hz (hprev a ha z he)

/-- Links of nodes outside the list do not matter. -/
theorem DoublyLinked.congr (h : DoublyLinked next prev head tail l)
    (hn : ∀ a ∈ l, next' a = next a) (hp : ∀ a ∈ l, prev' a = prev a) :
    DoublyLinked next' prev' head tail l :=
  ⟨segment_congr hn h.forward, segment_congr (by simpa using hp) h.backward⟩

/-- Linking a new node `t` behind the tail. -/
theorem DoublyLinked.push (h : DoublyLinked next prev head tail l)
    (hn : ∀ a ∈ l, some a ≠ tail → next' a = next a) (hz : ∀ z, tail = some z → next' z = some t)
    (ht : next' t = none) (hp : ∀ a ∈ l, prev' a = prev a) (hpt : prev' t = tail) :
    DoublyLinked next' prev' (if tail = none then some t else head) (some t) (l ++ [t]) := by
  constructor
  · rcases List.eq_nil_or_concat' l with rfl | ⟨l, z, rfl⟩
    · simp [h.tail_eq_none.mpr rfl, ht]
    · have hnd := segment_nodup h.forward
      have htail := h.tail_eq
      rw [if_neg (by simp [htail])]
      apply segment_push h.forward ?_ (hz z htail) ht
      intro a ha
      apply hn a (by simp [ha])
      intro heq
      obtain rfl := Option.some.inj (heq.trans htail)
      exact notMem_of_nodup_concat hnd ha
  · rw [List.reverse_append]
    refine ⟨rfl, ?_⟩
    rw [hpt]
    exact segment_congr (by simpa using hp) h.backward

/-- Unlinking the tail `z`: its predecessor becomes the tail. -/
theorem DoublyLinked.pop (h : DoublyLinked next prev head tail (l ++ [z]))
    (hn : ∀ a ∈ l, some a ≠ prev z → next' a = next a) (hy : ∀ y, prev z = some y → next' y = none)
    (hp : ∀ a ∈ l, prev' a = prev a) :
    DoublyLinked next' prev' (if prev z = none then none else head) (prev z) l := by
  have hb := h.backward
  rw [List.reverse_append] at hb
  obtain ⟨r, hr, -⟩ := segment_append.mp h.forward
  have hnd := segment_nodup h.forward
  refine ⟨?_, segment_congr (by simpa using hp) hb.2⟩
  rcases List.eq_nil_or_concat' l with rfl | ⟨l, y, rfl⟩
  · have hz : prev z = none := by simpa using hb.2
    simp [hz]
  · have hz : prev z = some y := by
      have hb := hb.2
      rw [List.reverse_append] at hb
      exact hb.1
    rw [if_neg (by simp [hz])]
    obtain ⟨r', hr', hyr⟩ := segment_append.mp hr
    refine segment_append.mpr ⟨r', segment_congr ?_ hr', hyr.1, hy y hz⟩
    intro a ha
    apply hn a (by simp [ha])
    intro heq
    obtain rfl := Option.some.inj (heq.trans hz)
    exact notMem_of_nodup_concat (List.nodup_append.mp hnd).1 ha

end UnixCodes.LinkedList
