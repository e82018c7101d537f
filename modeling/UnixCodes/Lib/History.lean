import Mathlib.Data.List.Basic
import Mathlib.Data.List.Nodup

/-! Histories of a container: what is put in and taken out, in order. A container that gives back
its newest member serves in the order of arrival only as long as it never holds two. -/
namespace UnixCodes.History

universe u

inductive Op (α : Type u)
  | put (a : α)
  | take (a : α)

variable {α : Type u} {h xs ys : List (Op α)} {l : List α} {a b z : α} {o o' : Op α}

def puts (h : List (Op α)) : List α :=
  h.filterMap fun o => match o with
    | .put a => some a
    | .take _ => none

def takes (h : List (Op α)) : List α :=
  h.filterMap fun o => match o with
    | .put _ => none
    | .take a => some a

/-- Of two members the one that came in first has gone out first. -/
def Fifo (h : List (Op α)) : Prop :=
  ∀ a b, List.Sublist [.put a, .put b] h → .take b ∈ h → List.Sublist [.take a, .take b] h

/-- Nothing is taken while there are two members. -/
def Single (h : List (Op α)) : Prop :=
  ∀ xs a ys, h = xs ++ .take a :: ys → (puts xs).length = (takes xs).length + 1

/-- A history that has left the members `l`, newest last: what is taken is the newest. -/
inductive Lifo : List (Op α) → List α → Prop
  | empty : Lifo [] []
  | put {xs : List (Op α)} {ys : List α} {x : α} (hl : Lifo xs ys) (hx : x ∉ puts xs) :
      Lifo (xs ++ [.put x]) (ys ++ [x])
  | take {xs : List (Op α)} {ys : List α} {x : α} (hl : Lifo xs (ys ++ [x])) :
      Lifo (xs ++ [.take x]) ys

@[simp] theorem puts_concat_put : puts (h ++ [.put a]) = puts h ++ [a] := by simp [puts]

@[simp] theorem puts_concat_take : puts (h ++ [.take a]) = puts h := by simp [puts]

@[simp] theorem takes_concat_put : takes (h ++ [.put a]) = takes h := by simp [takes]

@[simp] theorem takes_concat_take : takes (h ++ [.take a]) = takes h ++ [a] := by simp [takes]

theorem mem_puts : a ∈ puts h ↔ .put a ∈ h := by
  unfold puts
  rw [List.mem_filterMap]
  constructor
  · rintro ⟨o, ho, he⟩
    cases o with
    | put b => exact Option.some.inj he ▸ ho
    | take b => cases he
  · intro ho
    exact ⟨.put a, ho, rfl⟩

theorem mem_takes : a ∈ takes h ↔ .take a ∈ h := by
  unfold takes
  rw [List.mem_filterMap]
  constructor
  · rintro ⟨o, ho, he⟩
    cases o with
    | put b => cases he
    | take b => exact Option.some.inj he ▸ ho
  · intro ho
    exact ⟨.take a, ho, rfl⟩

theorem puts_sublist (hs : xs.Sublist h) : (puts xs).Sublist (puts h) := hs.filterMap _

theorem pair_sublist_concat {β : Type u} {x y z : β} {l : List β} :
    [x, y].Sublist (l ++ [z]) ↔ [x, y].Sublist l ∨ y = z ∧ x ∈ l := by
  constructor
  · intro h
    obtain ⟨l₁, l₂, he, h₁, h₂⟩ := List.sublist_append_iff.mp h
    rcases List.sublist_singleton.mp h₂ with rfl | rfl
    · left
      simpa [he] using h₁
    · right
      have he' : [x] ++ [y] = l₁ ++ [z] := he
      obtain ⟨rfl, hyz⟩ := List.append_inj' he' rfl
      exact ⟨by simpa using hyz, List.singleton_sublist.mp h₁⟩
  · rintro (h | ⟨rfl, hx⟩)
    · exact h.trans (List.sublist_append_left l [z])
    · exact (List.singleton_sublist.mpr hx).append (List.Sublist.refl [y])

/-- What the members and the history have to do with each other. -/
structure Holds (h : List (Op α)) (l : List α) : Prop where
  puts_nodup : (puts h).Nodup
  length : (puts h).length = (takes h).length + l.length
  mem : ∀ a, a ∈ puts h ↔ a ∈ takes h ∨ a ∈ l
  fresh : ∀ a ∈ l, a ∉ takes h
  nodup : l.Nodup
  order : ∀ a b, [a, b].Sublist l → List.Sublist [.put a, .put b] h

theorem holds_put (hl : Holds h l) (ha : a ∉ puts h) : Holds (h ++ [.put a]) (l ++ [a]) := by
  have hnot : a ∉ l := fun hmem => ha ((hl.mem a).mpr (.inr hmem))
  refine ⟨?_, ?_, ?_, ?_, ?_, ?_⟩
  · rw [puts_concat_put]
    simpa using hl.puts_nodup.concat ha
  · have := hl.length
    simp
    omega
  · intro b
    rw [puts_concat_put, takes_concat_put, List.mem_append, List.mem_append, hl.mem b, or_assoc]
  · intro b hb
    rw [takes_concat_put]
    rcases List.mem_append.mp hb with hb | hb
    · exact hl.fresh b hb
    · obtain rfl := List.mem_singleton.mp hb
      exact fun htake => ha ((hl.mem b).mpr (.inl htake))
  · simpa using hl.nodup.concat hnot
  · intro b c hbc
    apply pair_sublist_concat.mpr
    rcases pair_sublist_concat.mp hbc with hbc | ⟨rfl, hb⟩
    · exact .inl (hl.order b c hbc)
    · exact .inr ⟨rfl, mem_puts.mp ((hl.mem b).mpr (.inr hb))⟩

theorem holds_take (hl : Holds h (l ++ [z])) : Holds (h ++ [.take z]) l := by
  have hnot : z ∉ l := by
    intro hz
    exact (List.nodup_append.mp hl.nodup).2.2 z hz z (by simp) rfl
  refine ⟨?_, ?_, ?_, ?_, ?_, ?_⟩
  · rw [puts_concat_take]
    exact hl.puts_nodup
  · have := hl.length
    simp at this ⊢
    omega
  · intro b
    have := hl.mem b
    simp only [puts_concat_take, takes_concat_take, List.mem_append] at this ⊢
    rw [this]
    constructor
    · rintro (hb | hb | hb)
      · exact .inl (.inl hb)
      · exact .inr hb
      · exact .inl (.inr hb)
    · rintro ((hb | hb) | hb)
      · exact .inl hb
      · exact .inr (.inr hb)
      · exact .inr (.inl hb)
  · intro b hb htake
    rw [takes_concat_take, List.mem_append] at htake
    rcases htake with htake | htake
    · exact hl.fresh b (by simp [hb]) htake
    · obtain rfl := List.mem_singleton.mp htake
      exact hnot hb
  · exact (List.nodup_append.mp hl.nodup).1
  · intro b c hbc
    have hlong := hl.order b c (hbc.trans (List.sublist_append_left l [z]))
    exact hlong.trans (List.sublist_append_left h _)

theorem Lifo.holds (hl : Lifo h l) : Holds h l := by
  induction hl with
  | empty =>
    refine ⟨List.nodup_nil, rfl, by simp [puts, takes], by simp, List.nodup_nil, ?_⟩
    intro a b hab
    simp at hab
  | put _ ha ih => exact holds_put ih ha
  | take _ ih => exact holds_take ih

theorem fifo_put (hl : Holds h l) (ha : a ∉ puts h) : Fifo (h ++ [.put a]) ↔ Fifo h := by
  have htake : .take a ∉ h := fun hmem => ha ((hl.mem a).mpr (.inl (mem_takes.mpr hmem)))
  constructor
  · intro hf x y hput hy
    have hxy := hf x y (pair_sublist_concat.mpr (.inl hput)) (List.mem_append_left _ hy)
    rcases pair_sublist_concat.mp hxy with hxy | ⟨hne, -⟩
    · exact hxy
    · cases hne
  · intro hf x y hput hy
    have hy' : .take y ∈ h := by simpa using hy
    apply pair_sublist_concat.mpr
    rcases pair_sublist_concat.mp hput with hput | ⟨he, -⟩
    · exact .inl (hf x y hput hy')
    · cases he
      exact absurd hy' htake

/-- The newest member is the oldest one if it is the only one. -/
theorem fifo_take (hl : Holds h (l ++ [z])) : Fifo (h ++ [.take z]) ↔ Fifo h ∧ l = [] := by
  have hz : .take z ∉ h := fun hmem => hl.fresh z (by simp) (mem_takes.mpr hmem)
  constructor
  · intro hf
    constructor
    · intro x y hput hy
      have hxy := hf x y (pair_sublist_concat.mpr (.inl hput)) (List.mem_append_left _ hy)
      rcases pair_sublist_concat.mp hxy with hxy | ⟨he, -⟩
      · exact hxy
      · cases he
        exact absurd hy hz
    · rcases l with _ | ⟨a, l⟩
      · rfl
      · exfalso
        have hpair : [a, z].Sublist (a :: l ++ [z]) :=
          (List.singleton_sublist.mpr (by simp)).append (List.Sublist.refl [z])
        have hput := (hl.order a z hpair).trans (List.sublist_append_left h [.take z])
        rcases pair_sublist_concat.mp (hf a z hput (by simp)) with haz | ⟨-, ha⟩
        · exact hz (haz.subset (by simp))
        · exact hl.fresh a (by simp) (mem_takes.mpr ha)
  · rintro ⟨hf, rfl⟩ x y hput hy
    apply pair_sublist_concat.mpr
    rcases pair_sublist_concat.mp hput with hold | ⟨he, -⟩
    · rcases List.mem_append.mp hy with hy | hy
      · exact .inl (hf x y hold hy)
      · right
        obtain rfl : y = z := by simpa using hy
        have hx : x ∈ puts h := mem_puts.mpr (hold.subset List.mem_cons_self)
        rcases (hl.mem x).mp hx with hx | hx
        · exact ⟨rfl, mem_takes.mp hx⟩
        · obtain rfl := List.mem_singleton.mp hx
          have htwice : [x, x].Sublist (puts h) := puts_sublist hold
          exact absurd htwice (List.nodup_iff_sublist.mp hl.puts_nodup x)
    · cases he

theorem single_concat : Single (h ++ [o]) ↔
    Single h ∧ ∀ a, o = .take a → (puts h).length = (takes h).length + 1 := by
  constructor
  · intro hs
    constructor
    · intro xs a ys he
      exact hs xs a (ys ++ [o]) (by simp [he])
    · rintro a rfl
      exact hs h a [] rfl
  · rintro ⟨hs, ho⟩ xs a ys he
    rcases List.eq_nil_or_concat' ys with rfl | ⟨ys, y, rfl⟩
    · obtain ⟨rfl, hoa⟩ := List.append_inj' he rfl
      exact ho a (by simpa using hoa)
    · rw [← List.cons_append, ← List.append_assoc] at he
      obtain ⟨rfl, -⟩ := List.append_inj' he rfl
      exact hs xs a ys rfl

/-- Last in, first out is first in, first out exactly for the histories that never take from two. -/
theorem Lifo.fifo_iff_single (hl : Lifo h l) : Fifo h ↔ Single h := by
  induction hl with
  | empty =>
    constructor
    · intro _ xs a ys he
      simp at he
    · intro _ a b hab
      simp at hab
  | put hl ha ih => rw [fifo_put hl.holds ha, ih, single_concat, and_iff_left nofun]
  | @take h l z hl ih =>
    have hlen := hl.holds.length
    simp only [List.length_append, List.length_singleton] at hlen
    rw [fifo_take hl.holds, ih, single_concat]
    apply and_congr_right
    intro _
    constructor
    · rintro rfl a -
      simpa using hlen
    · intro hone
      have := hone z rfl
      exact List.length_eq_zero_iff.mp (by omega)

end UnixCodes.History
