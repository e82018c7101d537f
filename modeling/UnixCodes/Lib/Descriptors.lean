import Mathlib.Data.List.Basic

/-! A process's descriptor table with one event queue. Numbers are reused, files are not; closing a
descriptor drops its registration. -/
namespace UnixCodes

universe u

/-- An open file and its status flags. -/
structure File where
  id : ℕ
  flags : BitVec 32

structure Descriptors (υ : Type u) where
  file : ℕ → Option File
  registration : ℕ → Option υ
  opened : ℕ
  closed : List ℕ
  registered_open : ∀ fd, file fd = none → registration fd = none
  used : ∀ fd f, file fd = some f → f.id < opened ∧ f.id ∉ closed
  distinct : ∀ fd fd' f f', file fd = some f → file fd' = some f' → f.id = f'.id → fd = fd'
  closed_lt : ∀ i ∈ closed, i < opened
  nodup : closed.Nodup

namespace Descriptors

variable {υ : Type u} {d : Descriptors υ} {fd fd' : ℕ} {f : File} {u : υ} {v : BitVec 32}

def empty : Descriptors υ :=
  ⟨fun _ => none, fun _ => none, 0, [], fun _ _ => rfl,
    fun _ _ h => (Option.some_ne_none _ h.symm).elim,
    fun _ _ _ _ h => (Option.some_ne_none _ h.symm).elim, fun _ h => (List.not_mem_nil h).elim,
    List.nodup_nil⟩

/-- The file behind a number that is not in use; the other numbers keep theirs. -/
def openFile (d : Descriptors υ) (fd : ℕ) (v : BitVec 32) : Descriptors υ where
  file n := if n = fd ∧ d.file fd = none then some ⟨d.opened, v⟩ else d.file n
  registration := d.registration
  opened := d.opened + 1
  closed := d.closed
  registered_open n hn := by
    split at hn
    · cases hn
    · exact d.registered_open n hn
  used n f hf := by
    split at hf
    · cases hf
      refine ⟨Nat.lt_succ_self _, fun hmem => ?_⟩
      exact absurd (d.closed_lt _ hmem) (Nat.lt_irrefl _)
    · obtain ⟨hlt, hnot⟩ := d.used n f hf
      exact ⟨by omega, hnot⟩
  distinct n n' f f' hf hf' he := by
    split at hf <;> split at hf'
    · rename_i h h'
      rw [h.1, h'.1]
    · cases hf
      exact absurd (d.used n' f' hf').1 (by simp [← he])
    · cases hf'
      exact absurd (d.used n f hf).1 (by simp [he])
    · exact d.distinct n n' f f' hf hf' he
  closed_lt i hi := by
    have := d.closed_lt i hi
    omega
  nodup := d.nodup

def setFlags (d : Descriptors υ) (fd : ℕ) (v : BitVec 32) : Descriptors υ where
  file n := if n = fd then (d.file fd).map fun f => { f with flags := v } else d.file n
  registration := d.registration
  opened := d.opened
  closed := d.closed
  registered_open n hn := by
    split at hn
    · rename_i he
      rw [he]
      exact d.registered_open fd (by simpa using hn)
    · exact d.registered_open n hn
  used n f hf := by
    split at hf
    · obtain ⟨g, hg, rfl⟩ := Option.map_eq_some_iff.mp hf
      exact d.used fd g hg
    · exact d.used n f hf
  distinct n n' f f' hf hf' he := by
    have hfile (m : ℕ) (e : File)
        (hm : (if m = fd then (d.file fd).map fun f => { f with flags := v } else d.file m) =
          some e) : ∃ g, d.file m = some g ∧ g.id = e.id := by
      split at hm
      · rename_i h
        obtain ⟨g, hg, rfl⟩ := Option.map_eq_some_iff.mp hm
        exact ⟨g, h ▸ hg, rfl⟩
      · exact ⟨e, hm, rfl⟩
    obtain ⟨g, hg, hid⟩ := hfile n f hf
    obtain ⟨g', hg', hid'⟩ := hfile n' f' hf'
    exact d.distinct n n' g g' hg hg' (by omega)
  closed_lt := d.closed_lt
  nodup := d.nodup

/-- A registration for a number that is in use. -/
def register (d : Descriptors υ) (fd : ℕ) (u : υ) : Descriptors υ where
  file := d.file
  registration n := if n = fd ∧ (d.file fd).isSome then some u else d.registration n
  opened := d.opened
  closed := d.closed
  registered_open n hn := by
    rw [if_neg]
    · exact d.registered_open n hn
    · rintro ⟨rfl, hsome⟩
      simp [hn] at hsome
  used := d.used
  distinct := d.distinct
  closed_lt := d.closed_lt
  nodup := d.nodup

def deregister (d : Descriptors υ) (fd : ℕ) : Descriptors υ where
  file := d.file
  registration n := if n = fd then none else d.registration n
  opened := d.opened
  closed := d.closed
  registered_open n hn := by
    split
    · rfl
    · exact d.registered_open n hn
  used := d.used
  distinct := d.distinct
  closed_lt := d.closed_lt
  nodup := d.nodup

def close (d : Descriptors υ) (fd : ℕ) : Descriptors υ where
  file n := if n = fd then none else d.file n
  registration n := if n = fd then none else d.registration n
  opened := d.opened
  closed := ((d.file fd).map File.id).toList ++ d.closed
  registered_open n hn := by
    split
    · rfl
    · rename_i h
      rw [if_neg h] at hn
      exact d.registered_open n hn
  used n f hf := by
    split at hf
    · cases hf
    · rename_i hne
      obtain ⟨hlt, hnot⟩ := d.used n f hf
      refine ⟨hlt, fun hmem => ?_⟩
      rcases List.mem_append.mp hmem with hmem | hmem
      · obtain ⟨g, hg, hid⟩ := Option.map_eq_some_iff.mp (Option.mem_toList.mp hmem)
        exact hne (d.distinct n fd f g hf hg hid.symm)
      · exact hnot hmem
  distinct n n' f f' hf hf' he := by
    split at hf
    · cases hf
    · split at hf'
      · cases hf'
      · exact d.distinct n n' f f' hf hf' he
  closed_lt i hi := by
    rcases List.mem_append.mp hi with hi | hi
    · obtain ⟨g, hg, rfl⟩ := Option.map_eq_some_iff.mp (Option.mem_toList.mp hi)
      exact (d.used fd g hg).1
    · exact d.closed_lt i hi
  nodup := by
    cases hf : d.file fd with
    | none => exact d.nodup
    | some f => exact List.nodup_cons.mpr ⟨(d.used fd f hf).2, d.nodup⟩

theorem file_openFile_self (h : d.file fd = none) :
    (d.openFile fd v).file fd = some ⟨d.opened, v⟩ := if_pos ⟨rfl, h⟩

theorem file_openFile_of_some (h : d.file fd' = some f) : (d.openFile fd v).file fd' = some f := by
  rw [← h]
  apply if_neg
  rintro ⟨rfl, hnone⟩
  simp [hnone] at h

theorem file_setFlags_self (h : d.file fd = some f) :
    (d.setFlags fd v).file fd = some { f with flags := v } := by
  simp [setFlags, h]

theorem file_setFlags_of_ne (h : fd' ≠ fd) : (d.setFlags fd v).file fd' = d.file fd' := if_neg h

theorem registration_register_self (h : d.file fd = some f) :
    (d.register fd u).registration fd = some u := if_pos ⟨rfl, by simp [h]⟩

theorem registration_register_of_ne (h : fd' ≠ fd) :
    (d.register fd u).registration fd' = d.registration fd' := if_neg (fun hc => h hc.1)

@[simp] theorem file_deregister : (d.deregister fd).file fd' = d.file fd' := rfl

@[simp] theorem registration_deregister_self :
    (d.deregister fd).registration fd = none := if_pos rfl

theorem registration_deregister_of_ne (h : fd' ≠ fd) :
    (d.deregister fd).registration fd' = d.registration fd' := if_neg h

theorem file_close_of_ne (h : fd' ≠ fd) : (d.close fd).file fd' = d.file fd' := if_neg h

theorem registration_close_of_ne (h : fd' ≠ fd) :
    (d.close fd).registration fd' = d.registration fd' := if_neg h

@[simp] theorem registration_close_self : (d.close fd).registration fd = none := if_pos rfl

theorem open_of_registered (h : d.registration fd = some u) : ∃ f, d.file fd = some f := by
  refine Option.ne_none_iff_exists'.mp (fun hnone => ?_)
  rw [d.registered_open fd hnone] at h
  cases h

end Descriptors

end UnixCodes
