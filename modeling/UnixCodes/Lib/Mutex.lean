import Mathlib.Data.List.Nodup

/-! Histories of what is done under a lock. Where nobody takes the lock twice, they are serial: the
accesses of one holder stand together, in the order in which the lock was taken. -/
namespace UnixCodes.Mutex

universe u v

inductive Event (ι : Type u) (β : Type v)
  | acquire (i : ι)
  | access (i : ι) (b : β)
  | release (i : ι)

variable {ι : Type u} {β : Type v} {i j : ι} {o o' : Option ι} {h : List (Event ι β)}

/-- Who takes the lock, in order. -/
def acquirers (h : List (Event ι β)) : List ι :=
  h.filterMap fun e => match e with
    | .acquire i => some i
    | _ => none

def accesses (h : List (Event ι β)) : List (ι × β) :=
  h.filterMap fun e => match e with
    | .access i b => some (i, b)
    | _ => none

def accessesBy [DecidableEq ι] (i : ι) (h : List (Event ι β)) : List β :=
  h.filterMap fun e => match e with
    | .access j b => if j = i then some b else none
    | _ => none

/-- The events that a lock lets through, from one holder to another. -/
inductive Locked : Option ι → List (Event ι β) → Option ι → Prop
  | nil {o : Option ι} : Locked o [] o
  | acquire {i : ι} {h : List (Event ι β)} {o : Option ι} (hl : Locked (some i) h o) :
      Locked none (.acquire i :: h) o
  | access {i : ι} {h : List (Event ι β)} {o : Option ι} (b : β) (hl : Locked (some i) h o) :
      Locked (some i) (.access i b :: h) o
  | release {i : ι} {h : List (Event ι β)} {o : Option ι} (hl : Locked none h o) :
      Locked (some i) (.release i :: h) o

/-- The holder that the history starts with, and those who take the lock in it. -/
def holders (o : Option ι) (h : List (Event ι β)) : List ι := o.toList ++ acquirers h

@[simp] theorem holders_acquire :
    holders none (.acquire i :: h) = holders (some i) h := rfl

@[simp] theorem holders_access {b : β} : holders o (.access i b :: h) = holders o h := rfl

@[simp] theorem holders_release :
    holders (some i) (.release i :: h) = i :: holders none h := rfl

/-- Whoever is in `holders` without being the last has released the lock. -/
theorem Locked.released (hl : Locked o h o') (hi : i ∈ (holders o h).dropLast) :
    .release i ∈ h := by
  induction hl with
  | nil =>
    rename_i o
    cases o <;> cases hi
  | acquire _ ih => exact List.mem_cons_of_mem _ (ih hi)
  | access b _ ih => exact List.mem_cons_of_mem _ (ih hi)
  | @release j h o _ ih =>
    rw [holders_release] at hi
    rcases hq : holders none h with _ | ⟨k, q⟩
    · rw [hq] at hi
      cases hi
    · rw [hq, List.dropLast_cons_cons, List.mem_cons, ← hq] at hi
      rcases hi with rfl | hi
      · exact List.mem_cons_self ..
      · exact List.mem_cons_of_mem _ (ih hi)

section Serial

variable [DecidableEq ι]

@[simp] theorem accessesBy_acquire : accessesBy j (.acquire i :: h) = accessesBy j h := rfl

@[simp] theorem accessesBy_release : accessesBy j (.release i :: h) = accessesBy j h := rfl

theorem accessesBy_self {b : β} :
    accessesBy i (.access i b :: h) = b :: accessesBy i h := by
  simp [accessesBy]

theorem accessesBy_of_ne {b : β} (hne : i ≠ j) :
    accessesBy j (.access i b :: h) = accessesBy j h := by
  simp [accessesBy, hne]

theorem Locked.accessesBy_eq_nil (hl : Locked o h o') (hi : i ∉ holders o h) :
    accessesBy i h = [] := by
  induction hl with
  | nil => rfl
  | acquire _ ih => exact ih hi
  | @access j h o b _ ih =>
    have hne : j ≠ i := by
      rintro rfl
      exact hi (List.mem_cons_self ..)
    rw [accessesBy_of_ne hne]
    exact ih hi
  | release _ ih => exact ih fun hmem => hi (List.mem_cons_of_mem _ hmem)

/-- The accesses of the whole history, holder by holder. -/
theorem Locked.serial (hl : Locked o h o') (hnd : (holders o h).Nodup) :
    accesses h = (holders o h).flatMap fun i => (accessesBy i h).map (i, ·) := by
  induction hl with
  | @nil o => cases o <;> rfl
  | acquire _ ih => exact ih hnd
  | @access i h o b _ ih =>
    have hcons : holders (some i) h = i :: acquirers h := rfl
    have hrest : ∀ j ∈ acquirers h,
        (accessesBy j (.access i b :: h)).map (j, ·) = (accessesBy j h).map (j, ·) := by
      intro j hj
      have hne : i ≠ j := fun he => (List.nodup_cons.mp hnd).1 (he ▸ hj)
      rw [accessesBy_of_ne hne]
    calc accesses (.access i b :: h)
        = (i, b) :: accesses h := rfl
      _ = (i, b) :: ((accessesBy i h).map (i, ·) ++
            (acquirers h).flatMap fun j => (accessesBy j h).map (j, ·)) := by
          rw [ih hnd, hcons, List.flatMap_cons]
      _ = (holders (some i) (.access i b :: h)).flatMap fun j =>
            (accessesBy j (.access i b :: h)).map (j, ·) := by
          rw [holders_access, hcons, List.flatMap_cons, accessesBy_self, List.map_cons,
            List.cons_append, List.flatMap_congr hrest]
  | @release i h o hl ih =>
    obtain ⟨hi, hnd'⟩ := List.nodup_cons.mp hnd
    calc accesses (.release i :: h)
        = (holders none h).flatMap fun j => (accessesBy j h).map (j, ·) := ih hnd'
      _ = (i :: holders none h).flatMap fun j => (accessesBy j h).map (j, ·) := by
          rw [List.flatMap_cons, hl.accessesBy_eq_nil hi, List.map_nil, List.nil_append]

end Serial

end UnixCodes.Mutex
