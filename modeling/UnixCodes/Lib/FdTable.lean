import Mathlib.Logic.Function.Basic
import UnixCodes.Lib.LowestFree

/-! A process's descriptor table that hands out the lowest free number. -/
namespace UnixCodes

universe u

/-- An open file; its `id` is never used again. -/
structure OpenFile (α : Type u) where
  id : ℕ
  contents : α

structure FdTable (α : Type u) where
  file : ℕ → Option (OpenFile α)
  used : Finset ℕ
  opened : ℕ
  mem_used : ∀ n, n ∈ used ↔ (file n).isSome
  old : ∀ n f, file n = some f → f.id < opened

namespace FdTable

variable {α : Type u} {t : FdTable α} {x : α} {n : ℕ} {f : OpenFile α}

def empty : FdTable α := ⟨fun _ => none, ∅, 0, by simp, fun _ _ h => nomatch h⟩

/-- The number that the next `open` returns. -/
def lowest (t : FdTable α) : ℕ := lowestFree t.used

/-- What the next `open` of `x` puts into the table. -/
def fresh (t : FdTable α) (x : α) : OpenFile α := ⟨t.opened, x⟩

def openFile (t : FdTable α) (x : α) : FdTable α where
  file := Function.update t.file t.lowest (some (t.fresh x))
  used := insert t.lowest t.used
  opened := t.opened + 1
  mem_used n := by
    by_cases he : n = t.lowest
    · simp [he]
    · simp [he, t.mem_used]
  old n f hf := by
    by_cases he : n = t.lowest
    · subst he
      rw [Function.update_self] at hf
      cases hf
      exact Nat.lt_succ_self _
    · rw [Function.update_of_ne he] at hf
      exact Nat.lt_succ_of_lt (t.old n f hf)

/-- Closing a number that is not in use does nothing. -/
def close (t : FdTable α) (n : ℕ) : FdTable α where
  file := Function.update t.file n none
  used := t.used.erase n
  opened := t.opened
  mem_used m := by
    by_cases he : m = n
    · simp [he]
    · simp [he, t.mem_used]
  old m f hf := by
    by_cases he : m = n
    · subst he
      rw [Function.update_self] at hf
      cases hf
    · rw [Function.update_of_ne he] at hf
      exact t.old m f hf

theorem file_lowest : t.file t.lowest = none := by
  have hfree : t.lowest ∉ t.used := lowestFree_notMem
  rw [t.mem_used] at hfree
  simpa using hfree

theorem ne_lowest (h : t.file n = some f) : n ≠ t.lowest := by
  rintro rfl
  rw [file_lowest] at h
  cases h

@[simp] theorem file_openFile_self : (t.openFile x).file t.lowest = some (t.fresh x) :=
  Function.update_self ..

theorem file_openFile_of_ne (h : n ≠ t.lowest) : (t.openFile x).file n = t.file n :=
  Function.update_of_ne h ..

@[simp] theorem file_close_self : (t.close n).file n = none := Function.update_self ..

theorem file_close_of_ne {m : ℕ} (h : m ≠ n) : (t.close n).file m = t.file m :=
  Function.update_of_ne h ..

theorem close_of_none (h : t.file n = none) : t.close n = t := by
  have hnot : n ∉ t.used := by simp [t.mem_used, h]
  have hfile : Function.update t.file n none = t.file := by rw [← h, Function.update_eq_self]
  simp only [close, hfile, Finset.erase_eq_of_notMem hnot]

/-- A second `close` of a number does nothing. -/
theorem close_close : (t.close n).close n = t.close n := close_of_none file_close_self

/-- The table is `base` with the files `held` opened since then, under numbers that were free. -/
structure Holds (base : FdTable α) (held : List (ℕ × OpenFile α)) (t : FdTable α) : Prop where
  refers : ∀ x ∈ held, t.file x.1 = some x.2
  distinct : (held.map Prod.fst).Nodup
  free : ∀ x ∈ held, base.file x.1 = none
  others : ∀ n, n ∉ held.map Prod.fst → t.file n = base.file n

variable {base : FdTable α} {held held' : List (ℕ × OpenFile α)}

theorem Holds.nil : Holds base [] base := ⟨by simp, by simp, by simp, fun _ _ => rfl⟩

theorem Holds.perm (h : Holds base held t) (hp : held.Perm held') : Holds base held' t := by
  refine ⟨?_, (hp.map _).nodup_iff.mp h.distinct, ?_, ?_⟩
  · intro x hx
    exact h.refers x (hp.mem_iff.mpr hx)
  · intro x hx
    exact h.free x (hp.mem_iff.mpr hx)
  · intro n hn
    exact h.others n (fun hmem => hn ((hp.map _).mem_iff.mp hmem))

theorem Holds.lowest_notMem (h : Holds base held t) : t.lowest ∉ held.map Prod.fst := by
  intro hmem
  obtain ⟨y, hy, he⟩ := List.mem_map.mp hmem
  have hfile := h.refers y hy
  rw [he, file_lowest] at hfile
  cases hfile

theorem Holds.openFile (h : Holds base held t) (x : α) :
    Holds base ((t.lowest, t.fresh x) :: held) (t.openFile x) := by
  refine ⟨?_, ?_, ?_, ?_⟩
  · intro y hy
    rcases List.mem_cons.mp hy with rfl | hy
    · exact file_openFile_self
    · have hfile := h.refers y hy
      rw [file_openFile_of_ne (ne_lowest hfile)]
      exact hfile
  · exact List.nodup_cons.mpr ⟨h.lowest_notMem, h.distinct⟩
  · intro y hy
    rcases List.mem_cons.mp hy with rfl | hy
    · exact (h.others _ h.lowest_notMem).symm.trans file_lowest
    · exact h.free y hy
  · intro n hn
    rw [List.map_cons, List.mem_cons, not_or] at hn
    rw [file_openFile_of_ne hn.1]
    exact h.others n hn.2

theorem Holds.close (h : Holds base ((n, f) :: held) t) : Holds base held (t.close n) := by
  have hdistinct := h.distinct
  rw [List.map_cons, List.nodup_cons] at hdistinct
  refine ⟨?_, hdistinct.2, ?_, ?_⟩
  · intro y hy
    have hne : y.1 ≠ n := by
      intro he
      exact hdistinct.1 (List.mem_map.mpr ⟨y, hy, he⟩)
    rw [file_close_of_ne hne]
    exact h.refers y (List.mem_cons_of_mem _ hy)
  · intro y hy
    exact h.free y (List.mem_cons_of_mem _ hy)
  · intro m hm
    by_cases he : m = n
    · subst he
      rw [file_close_self]
      exact (h.free _ List.mem_cons_self).symm
    · rw [file_close_of_ne he]
      apply h.others
      rw [List.map_cons, List.mem_cons]
      exact not_or.mpr ⟨he, hm⟩

/-- What is in use beyond `base` are the numbers held. -/
theorem Holds.card (h : Holds base held t) : (t.used \ base.used).card = held.length := by
  have hused : t.used \ base.used = (held.map Prod.fst).toFinset := by
    ext n
    rw [Finset.mem_sdiff, List.mem_toFinset, t.mem_used, base.mem_used]
    by_cases hn : n ∈ held.map Prod.fst
    · obtain ⟨x, hx, rfl⟩ := List.mem_map.mp hn
      simp [hn, h.refers x hx, h.free x hx]
    · rw [h.others n hn]
      exact ⟨fun hboth => absurd hboth.1 hboth.2, fun hmem => absurd hmem hn⟩
  rw [hused, List.toFinset_card_of_nodup h.distinct, List.length_map]

end FdTable

end UnixCodes
