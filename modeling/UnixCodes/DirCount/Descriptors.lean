import UnixCodes.DirCount.Ducfd
import UnixCodes.DirCount.Duclinkfd

/-! The descriptors of both walks: no number is closed under another directory, and none is kept. -/
namespace UnixCodes.DirCount

open Transition

mutual

/-- The levels of directories reached through an entry. -/
def Entry.depth : Entry → ℕ
  | .mk name type opens reads entries =>
    if ¬ (name = "." ∨ name = "..") ∧ type = .dir ∧ opens = true then
      (if reads then entriesDepth entries else 0) + 1
    else 0

def entriesDepth : List Entry → ℕ
  | [] => 0
  | e :: es => max e.depth (entriesDepth es)

end

namespace Dir

/-- The levels of directories below a directory. -/
def depth (d : Dir) : ℕ := if d.reads then entriesDepth d.entries else 0

/-- `x` is entered from `d`. -/
def Within (x d : Dir) : Prop := d.reads = true ∧ ∃ e ∈ d.entries, e.enter = some x

/-- The directories from the current one up to the start directory; none after the return. -/
inductive Path (root : Dir) : List Dir → Prop
  | nil : Path root []
  | start : Path root [root]
  | enter {x d : Dir} {p : List Dir} (hwithin : x.Within d) (hp : Path root (d :: p)) :
      Path root (x :: d :: p)

end Dir

/-- Of the open files at most the one in use is closed. -/
def OnlyCloses (uses : Option (ℕ × OpenFile Dir)) (table table' : FdTable Dir) : Prop :=
  ∀ n file, table.file n = some file → table'.file n = some file ∨ uses = some (n, file)

variable {base : FdTable Dir} {root d x : Dir} {e : Entry} {es : List Entry} {p : List Dir}
  {table : FdTable Dir} {uses : Option (ℕ × OpenFile Dir)} {fd : ℕ} {file : OpenFile Dir}

theorem depth_of_enter (h : e.enter = some d) : e.depth = d.depth + 1 := by
  obtain ⟨hc, rfl⟩ := enter_eq_some_iff.mp h
  cases e
  rw [Entry.depth]
  exact if_pos hc

theorem depth_le_of_mem (he : e ∈ es) : e.depth ≤ entriesDepth es := by
  induction es with
  | nil => cases he
  | cons e' es ih =>
    rw [entriesDepth]
    rcases List.mem_cons.mp he with rfl | hmem
    · omega
    · have hle := ih hmem
      omega

theorem Dir.Within.depth_lt (h : x.Within d) : x.depth < d.depth := by
  obtain ⟨hreads, e, he, hx⟩ := h
  have hle := depth_le_of_mem he
  have heq := depth_of_enter hx
  rw [Dir.depth, Dir.depth, if_pos hreads]
  rw [Dir.depth] at heq
  omega

/-- Each directory on a path takes up one level of the tree. -/
theorem Dir.Path.length_add_depth (h : root.Path (x :: p)) : p.length + x.depth ≤ root.depth := by
  generalize hp : x :: p = q at h
  induction h generalizing x p with
  | nil => cases hp
  | start =>
    cases hp
    simp
  | enter hwithin _ ih =>
    cases hp
    have hlt := hwithin.depth_lt
    have hle := ih rfl
    rw [List.length_cons]
    omega

theorem Dir.Path.length_le (h : root.Path p) : p.length ≤ root.depth + 1 := by
  cases p with
  | nil => exact Nat.zero_le _
  | cons x p =>
    have hle := h.length_add_depth
    rw [List.length_cons]
    omega

theorem Dir.Path.tail (h : root.Path (x :: p)) : root.Path p := by
  cases h with
  | start => exact .nil
  | enter _ hp => exact hp

theorem onlyCloses_refl : OnlyCloses uses table table := fun _ _ h => .inl h

theorem onlyCloses_openFile : OnlyCloses uses table (table.openFile d) := by
  intro n file hfile
  left
  rw [FdTable.file_openFile_of_ne (FdTable.ne_lowest hfile)]
  exact hfile

theorem onlyCloses_close (hfile : table.file fd = some file) (huses : uses = some (fd, file)) :
    OnlyCloses uses table (table.close fd) := by
  intro n file' hfile'
  by_cases hn : n = fd
  · subst hn
    obtain rfl := Option.some.inj (hfile.symm.trans hfile')
    exact .inr huses
  · left
    rw [FdTable.file_close_of_ne hn]
    exact hfile'

namespace Ducfd

variable {s t : State} {a : Action}

/-- The directories of the calls in progress. -/
def State.path (s : State) : List Dir := s.held.map fun x => x.2.contents

theorem step_onlyCloses (h : Valid base root s) (hs : Step s a (.ok t)) :
    OnlyCloses s.uses s.table t.table := by
  generalize hr : (.ok t : Except Fault State) = r at hs
  cases hs with
  | stale => cases hr
  | fdopendirError hc hfile hreads =>
    cases hr
    exact onlyCloses_close hfile (by simp [State.uses, hc])
  | fdopendir =>
    cases hr
    exact onlyCloses_refl
  | @readdir f fs e rest hc hframes hfile hrest =>
    cases hr
    unfold State.visited
    rcases visit f.file.contents s.counts e with ⟨counts, opened⟩
    cases opened with
    | none => exact onlyCloses_refl
    | some d => exact onlyCloses_openFile
  | closedir hc hframes hfile hrest =>
    cases hr
    rw [FdTable.close_close]
    exact onlyCloses_close hfile (by simp [State.uses, hc, hframes])
  | close hc hframes =>
    cases hr
    rw [FdTable.close_of_none (h.returned _ hc)]
    exact onlyCloses_refl

/-- A call adds a directory to the path, and its return takes it off. -/
theorem step_path (h : Valid base root s) (hp : root.Path s.path) (hs : Step s a (.ok t)) :
    root.Path t.path := by
  generalize hr : (.ok t : Except Fault State) = r at hs
  cases hs with
  | stale => cases hr
  | fdopendirError hc hfile hreads =>
    cases hr
    rw [State.path, held_of_call hc] at hp
    simpa [State.path, State.held] using hp.tail
  | fdopendir hc hfile hreads listing hlisting =>
    cases hr
    simpa [State.path, State.held, hc] using hp
  | @readdir f fs e rest hc hframes hfile hrest =>
    cases hr
    obtain ⟨hnamed, hreads, hsub⟩ := valid_reading h hc hframes
    have he : e ∈ f.file.contents.entries := hsub e (hrest ▸ List.mem_cons_self)
    rw [State.path, held_of_loop hc hframes] at hp
    unfold State.visited
    rw [visit_eq s.counts hnamed he]
    cases henter : e.enter with
    | none => simpa [State.path, State.held, hc] using hp
    | some d =>
      have hwithin : d.Within f.file.contents := ⟨hreads, e, he, henter⟩
      simpa [State.path, State.held, FdTable.fresh] using hp.enter hwithin
  | closedir hc hframes hfile hrest =>
    cases hr
    rw [State.path, held_of_loop hc hframes] at hp
    simpa [State.path, State.held] using hp.tail
  | close hc hframes =>
    cases hr
    simpa [State.path, State.held, hc] using hp

theorem path_reachable (hroot : root.WellNamed) (hs : (walk base root).Reachable s) :
    root.Path s.path := by
  apply System.reachable_induction ?_ ?_ hs
  · rintro s rfl
    exact .start
  · intro s a t hreach hs hp
    exact step_path (valid_reachable hroot hreach) hp hs

/-- The directory in use is where the path ends. -/
theorem head_path (huses : s.uses = some (fd, file)) : s.path.head? = some file.contents := by
  obtain ⟨held, hheld⟩ := held_of_uses huses
  rw [State.path, hheld, List.map_cons, List.head?_cons]

end Ducfd

namespace Duclinkfd

variable {s t : State} {a : Action}

theorem append_table {newfd : ℕ} (ht : s.append newfd file = .ok t) : t.table = s.table := by
  unfold State.append at ht
  dsimp only at ht
  split at ht
  · cases ht
  · cases ht
    rfl

theorem advance_table (ht : s.advance = .ok t) : t.table = s.table := by
  unfold State.advance at ht
  split at ht
  · cases ht
  · split at ht
    · cases ht
      rfl
    · cases ht
      rfl

theorem visited_table {rest : List Entry} (ht : s.visited fd file e rest true = .ok t) :
    t.table = s.table ∨ ∃ d, t.table = s.table.openFile d := by
  unfold State.visited at ht
  generalize visit file.contents s.counts e = v at ht
  obtain ⟨counts, opened⟩ := v
  cases opened with
  | none =>
    cases ht
    exact .inl rfl
  | some d => exact .inr ⟨d, append_table ht⟩

theorem step_onlyCloses (hmalloc : a.MallocOk) (hs : Step s a (.ok t)) :
    OnlyCloses s.uses s.table t.table := by
  generalize hr : (.ok t : Except Fault State) = r at hs
  cases hs with
  | dangling | stale => cases hr
  | fdopendirError hc hnode hfile hreads =>
    cases hr
    exact onlyCloses_close hfile (by simp [State.uses, hc, hnode])
  | fdopendir =>
    cases hr
    exact onlyCloses_refl
  | @readdir fd file e rest hc hfile malloc =>
    obtain rfl : malloc = true := hmalloc
    rcases visited_table hr.symm with htable | ⟨d, htable⟩
    · rw [htable]
      exact onlyCloses_refl
    · rw [htable]
      exact onlyCloses_openFile
  | closedir hc hfile =>
    rw [advance_table hr.symm, FdTable.close_close]
    exact onlyCloses_close hfile (by simp [State.uses, hc])

end Duclinkfd

/-- However often a descriptor is closed, every call for a directory finds its descriptor referring
to it, and in the end the table is what it was. `ducfd.c` holds one descriptor for each directory of
the current path. -/
theorem descriptors_safe (base base' : FdTable Dir) (tree : Tree) (hread : tree.root.AllRead) :
    ((∀ s, (Ducfd.walk base tree.root).Reachable s →
        (∀ fd file, s.uses = some (fd, file) →
          s.table.file fd = some file ∧ s.path.head? = some file.contents) ∧
        (∀ a t, Ducfd.Step s a (.ok t) → OnlyCloses s.uses s.table t.table) ∧
        tree.root.Path s.path ∧ (s.table.used \ base.used).card ≤ s.path.length ∧
        s.path.length ≤ tree.root.depth + 1) ∧
      (Ducfd.walk base tree.root).Ends (.start base tree.root) fun s =>
        s.Finished ∧ s.table.file = base.file) ∧
    (∀ s, ((Duclinkfd.walk base' tree.root).restrict fun _ a => a.MallocOk).Reachable s →
        (∀ fd file, s.uses = some (fd, file) → s.table.file fd = some file) ∧
        ∀ a t, a.MallocOk → Duclinkfd.Step s a (.ok t) → OnlyCloses s.uses s.table t.table) ∧
      ((Duclinkfd.walk base' tree.root).restrict fun _ a => a.MallocOk).Ends
        (.start base' tree.root) fun s => s.control = .done ∧ s.table.file = base'.file := by
  refine ⟨⟨?_, ?_⟩, ?_, ?_⟩
  · intro s hs
    have hvalid := Ducfd.valid_reachable tree.named hs
    have hpath := Ducfd.path_reachable tree.named hs
    refine ⟨fun fd file huses => ⟨Ducfd.uses_of_call hvalid huses, Ducfd.head_path huses⟩,
      fun a t => Ducfd.step_onlyCloses hvalid, hpath, ?_, hpath.length_le⟩
    rw [hvalid.holds.card, Ducfd.State.path, List.length_map]
  · apply (Ducfd.walk_outcome tree.named).imp
    rintro s ⟨hfinished, -, htable⟩
    exact ⟨hfinished, htable⟩
  · intro s hs
    refine ⟨fun fd file huses => ?_, fun a t => Duclinkfd.step_onlyCloses⟩
    rcases Duclinkfd.valid_or_abandoned tree.named hs with ⟨q, hvalid⟩ | habandoned
    · exact Duclinkfd.valid_uses hvalid huses
    · simp [Duclinkfd.State.uses, habandoned.done] at huses
  · apply (Duclinkfd.walk_outcome tree.named).imp
    rintro s ⟨hdone, hcomplete⟩
    exact ⟨hdone, (hcomplete.mpr hread).2.1⟩

/-- With many directories of one level there are never more than two descriptors in `ducfd.c`. -/
theorem descriptors_safe_flat :
    ∃ tree : Tree, tree.root.entries.length = 3 ∧
      (∀ s, (Ducfd.walk .empty tree.root).Reachable s → s.table.used.card ≤ 2) ∧
      (∀ s, ((Duclinkfd.walk .empty tree.root).restrict fun _ a => a.MallocOk).Reachable s →
        ∀ fd file, s.uses = some (fd, file) → s.table.file fd = some file) ∧
      ((Duclinkfd.walk .empty tree.root).restrict fun _ a => a.MallocOk).Ends
        (.start .empty tree.root) fun s =>
          s.control = .done ∧ s.table.file = FdTable.empty.file := by
  let root : Dir :=
    ⟨true, [.mk "a" .dir true true [], .mk "b" .dir true true [], .mk "c" .dir true true []]⟩
  let tree : Tree := ⟨root, show ∀ x ∈ _, _ by decide⟩
  obtain ⟨⟨hducfd, -⟩, hduclinkfd, hends⟩ :=
    descriptors_safe .empty .empty tree (show ∀ x ∈ _, _ by decide)
  refine ⟨tree, rfl, fun s hs => ?_, fun s hs => (hduclinkfd s hs).1, hends⟩
  obtain ⟨-, -, -, hcard, hlength⟩ := hducfd s hs
  have hdepth : tree.root.depth = 1 := by decide
  rw [FdTable.empty, Finset.sdiff_empty] at hcard
  omega

end UnixCodes.DirCount
