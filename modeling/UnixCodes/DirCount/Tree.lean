import Mathlib.Algebra.BigOperators.Group.List.Basic
import Mathlib.Algebra.Group.Pi.Basic
import Mathlib.Data.List.Perm.Basic
import Mathlib.Tactic.Abel

/-! The directory trees that `ducfd.c` and `duclinkfd.c` walk, and what there is to count. -/
namespace UnixCodes.DirCount

/-- `d_type`; `unknown` stands for every type that the programs do not count. -/
inductive DType
  | fifo
  | dir
  | reg
  | blk
  | sock
  | chr
  | lnk
  | unknown
  deriving DecidableEq

/-- The global counters of both programs. -/
inductive Counter
  | dirCount
  | regularCount
  | socketCount
  | blockCount
  | characterCount
  | linkCount
  | fifoCount
  deriving DecidableEq

/-- The counter that a `case` of the `switch` increments. -/
def DType.counter : DType → Option Counter
  | .fifo => some .fifoCount
  | .dir => some .dirCount
  | .reg => some .regularCount
  | .blk => some .blockCount
  | .sock => some .socketCount
  | .chr => some .characterCount
  | .lnk => some .linkCount
  | .unknown => none

/-- An entry of a directory. If it is one itself, `opens` and `reads` tell whether `openat` and
`fdopendir` succeed for it, and `entries` is what it contains. -/
inductive Entry
  | mk (name : String) (type : DType) (opens reads : Bool) (entries : List Entry)

structure Dir where
  reads : Bool
  entries : List Entry

namespace Entry

def name : Entry → String
  | mk name _ _ _ _ => name

def type : Entry → DType
  | mk _ type _ _ _ => type

def opens : Entry → Bool
  | mk _ _ opens _ _ => opens

def dir : Entry → Dir
  | mk _ _ _ reads entries => ⟨reads, entries⟩

/-- `.` and `..`. -/
def Dots (e : Entry) : Prop := e.name = "." ∨ e.name = ".."

instance (e : Entry) : Decidable e.Dots := inferInstanceAs (Decidable (_ ∨ _))

/-- The directory that a walk enters through this entry. -/
def enter (e : Entry) : Option Dir :=
  if ¬ e.Dots ∧ e.type = .dir ∧ e.opens = true then some e.dir else none

def CountedAs (e : Entry) (c : Counter) : Prop := ¬ e.Dots ∧ e.type.counter = some c

instance (e : Entry) (c : Counter) : Decidable (e.CountedAs c) :=
  inferInstanceAs (Decidable (_ ∧ _))

/-- What the entry itself adds to the counters. -/
def one (e : Entry) (c : Counter) : ℕ := if e.CountedAs c then 1 else 0

end Entry

mutual

/-- The directories reached through an entry. -/
def Entry.dirs : Entry → List Dir
  | .mk name type opens reads entries =>
    if ¬ (name = "." ∨ name = "..") ∧ type = .dir ∧ opens = true then
      ⟨reads, entries⟩ :: if reads then entriesDirs entries else []
    else []

def entriesDirs : List Entry → List Dir
  | [] => []
  | e :: es => e.dirs ++ entriesDirs es

end

namespace Dir

/-- The directories reached from a directory, itself included. -/
def dirs (d : Dir) : List Dir := d :: if d.reads then entriesDirs d.entries else []

/-- The entries of one type over all directories reached that can be read. -/
def total (d : Dir) (c : Counter) : ℕ :=
  ((d.dirs.filter Dir.reads).flatMap Dir.entries).countP (·.CountedAs c)

/-- No name occurs twice in a directory. -/
def WellNamed (d : Dir) : Prop := ∀ x ∈ d.dirs, (x.entries.map Entry.name).Nodup

/-- `fdopendir` succeeds wherever the walk comes. -/
def AllRead (d : Dir) : Prop := ∀ x ∈ d.dirs, x.reads = true

/-- `openat` with `O_DIRECTORY`. -/
def openat (d : Dir) (name : String) : Option Dir :=
  match d.entries.find? (·.name = name) with
  | some e => if e.type = .dir ∧ e.opens = true then some e.dir else none
  | none => none

end Dir

/-- A file system: a name stands for one entry of its directory. -/
structure Tree where
  root : Dir
  named : root.WellNamed

/-- The counters after an entry of this type. -/
def count (counts : Counter → ℕ) (t : DType) : Counter → ℕ :=
  match t.counter with
  | some c => Function.update counts c (counts c + 1)
  | none => counts

/-- The body of the loop over `readdir`: the counters, and the directory that is opened. -/
def visit (d : Dir) (counts : Counter → ℕ) (e : Entry) : (Counter → ℕ) × Option Dir :=
  if e.Dots then (counts, none)
  else (count counts e.type, if e.type = .dir then d.openat e.name else none)

/-- What must not happen: a call for a directory whose descriptor no longer refers to it, and a
use of a node that has been freed. -/
inductive Fault
  | stale
  | dangling
  deriving DecidableEq

variable {d x : Dir} {e : Entry} {es rest listing : List Entry} {counts : Counter → ℕ}

theorem entriesDirs_eq : entriesDirs es = es.flatMap Entry.dirs := by
  induction es with
  | nil => rfl
  | cons e es ih => rw [entriesDirs, ih, List.flatMap_cons]

theorem enter_eq_some_iff : e.enter = some d ↔
    (¬ e.Dots ∧ e.type = .dir ∧ e.opens = true) ∧ e.dir = d := by
  unfold Entry.enter
  rw [Option.ite_none_right_eq_some, Option.some.injEq]

theorem dirs_of_enter (h : e.enter = some d) : e.dirs = d.dirs := by
  obtain ⟨hc, rfl⟩ := enter_eq_some_iff.mp h
  cases e
  rw [Entry.dirs]
  exact if_pos hc

theorem dirs_of_not_enter (h : e.enter = none) : e.dirs = [] := by
  unfold Entry.enter at h
  split at h
  · cases h
  · rename_i hc
    cases e
    rw [Entry.dirs]
    exact if_neg hc

theorem mem_dirs_self : d ∈ d.dirs := List.mem_cons_self

/-- What is reached from a subdirectory is reached from the directory. -/
theorem dirs_subset (hd : d.reads = true) (he : e ∈ d.entries) (hx : e.enter = some x) :
    ∀ y ∈ x.dirs, y ∈ d.dirs := by
  intro y hy
  apply List.mem_cons_of_mem
  rw [if_pos hd, entriesDirs_eq]
  exact List.mem_flatMap.mpr ⟨e, he, dirs_of_enter hx ▸ hy⟩

/-- What cannot be read is reached through the entries that a stream lists. -/
theorem mem_dirs_of_unread (hd : d.reads = true) (hp : listing.Perm d.entries)
    (hx : x.reads = false) : x ∈ entriesDirs listing ↔ x ∈ d.dirs := by
  have hne : x ≠ d := by
    rintro rfl
    cases hx.symm.trans hd
  rw [Dir.dirs, if_pos hd, List.mem_cons, or_iff_right hne, entriesDirs_eq, entriesDirs_eq]
  exact (hp.flatMap_right _).mem_iff

theorem Dir.WellNamed.enter (h : d.WellNamed) (hd : d.reads = true) (he : e ∈ d.entries)
    (hx : e.enter = some x) : x.WellNamed :=
  fun y hy => h y (dirs_subset hd he hx y hy)

theorem Dir.AllRead.enter (h : d.AllRead) (he : e ∈ d.entries) (hx : e.enter = some x) :
    x.AllRead :=
  fun y hy => h y (dirs_subset (h d mem_dirs_self) he hx y hy)

/-- A name leads `openat` to the entry that `readdir` has returned it with. -/
theorem openat_eq (h : d.WellNamed) (he : e ∈ d.entries) (hdots : ¬ e.Dots)
    (htype : e.type = .dir) : d.openat e.name = e.enter := by
  have hnodup := h d mem_dirs_self
  have hfind : d.entries.find? (·.name = e.name) = some e := by
    generalize d.entries = es at he hnodup
    induction es with
    | nil => cases he
    | cons e' es ih =>
      rw [List.map_cons, List.nodup_cons] at hnodup
      rcases List.mem_cons.mp he with rfl | hmem
      · simp
      · have hne : e'.name ≠ e.name := by
          intro heq
          exact hnodup.1 (heq ▸ List.mem_map_of_mem hmem)
        simp only [List.find?_cons, hne, decide_false]
        exact ih hmem hnodup.2
  simp [Dir.openat, hfind, Entry.enter, hdots, htype]

theorem count_eq (hdots : ¬ e.Dots) : count counts e.type = counts + e.one := by
  funext c
  unfold count
  cases hc : e.type.counter with
  | none => simp [Entry.one, Entry.CountedAs, hc]
  | some c' =>
    by_cases he : c = c'
    · simp [he, Entry.one, Entry.CountedAs, hc, hdots]
    · simp [Function.update_of_ne he, Entry.one, Entry.CountedAs, hc, Ne.symm he]

theorem one_of_dots (h : e.Dots) : e.one = 0 := by
  funext c
  simp [Entry.one, Entry.CountedAs, h]

/-- The body counts the entry, and opens what it leads to. -/
theorem visit_eq (counts : Counter → ℕ) (h : d.WellNamed) (he : e ∈ d.entries) :
    visit d counts e = (counts + e.one, e.enter) := by
  unfold visit
  by_cases hdots : e.Dots
  · simp [hdots, one_of_dots hdots, Entry.enter]
  · rw [if_neg hdots, count_eq hdots]
    by_cases htype : e.type = .dir
    · rw [if_pos htype, openat_eq h he hdots htype]
    · simp [htype, Entry.enter]

/-! What a walk has before it, if an entry is worth `g e` and a directory reached `c`. -/
section Due

universe u
variable {M : Type u} [AddCommMonoid M] {g : Entry → M} {c : M}

def Dir.own (g : Entry → M) (c : M) (d : Dir) : M :=
  c + if d.reads then (d.entries.map g).sum else 0

def Dir.due (g : Entry → M) (c : M) (d : Dir) : M := (d.dirs.map (Dir.own g c)).sum

def Entry.due (g : Entry → M) (c : M) (e : Entry) : M :=
  g e + (e.dirs.map (Dir.own g c)).sum

theorem Entry.due_of_enter (h : e.enter = some x) : e.due g c = g e + x.due g c := by
  rw [Entry.due, dirs_of_enter h, Dir.due]

theorem Entry.due_of_not_enter (h : e.enter = none) : e.due g c = g e := by
  rw [Entry.due, dirs_of_not_enter h, List.map_nil, List.sum_nil, add_zero]

theorem sum_due : (es.map (Entry.due g c)).sum =
    (es.map g).sum + ((entriesDirs es).map (Dir.own g c)).sum := by
  induction es with
  | nil => simp [entriesDirs]
  | cons e es ih =>
    simp only [List.map_cons, List.sum_cons, entriesDirs, List.map_append, List.sum_append, ih,
      Entry.due]
    abel

theorem Dir.due_of_reads (h : d.reads = true) (hp : listing.Perm d.entries) :
    d.due g c = c + (listing.map (Entry.due g c)).sum := by
  rw [(hp.map _).sum_eq, sum_due, Dir.due, Dir.dirs, if_pos h, List.map_cons, List.sum_cons,
    Dir.own, if_pos h, add_assoc]

theorem Dir.due_of_not_reads (h : d.reads = false) : d.due g c = c := by
  simp [Dir.due, Dir.dirs, Dir.own, h]

end Due

theorem sum_one {c : Counter} : (es.map Entry.one).sum c = es.countP (·.CountedAs c) := by
  induction es with
  | nil => rfl
  | cons e es ih =>
    rw [List.map_cons, List.sum_cons, Pi.add_apply, ih, List.countP_cons, Entry.one]
    simp [add_comm]

/-- The totals are what is due when every entry is worth itself. -/
theorem total_eq_due : d.total = d.due Entry.one 0 := by
  funext c
  have hall (ds : List Dir) :
      ((ds.filter Dir.reads).flatMap Dir.entries).countP (·.CountedAs c) =
        (ds.map (Dir.own Entry.one 0)).sum c := by
    induction ds with
    | nil => rfl
    | cons x ds ih =>
      rw [List.map_cons, List.sum_cons, Pi.add_apply, ← ih, Dir.own]
      by_cases hx : x.reads = true
      · simp [hx, List.countP_append, sum_one]
      · simp [hx]
  exact hall d.dirs

end UnixCodes.DirCount
