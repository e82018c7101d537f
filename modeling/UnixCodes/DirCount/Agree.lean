import UnixCodes.DirCount.Ducfd
import UnixCodes.DirCount.Duclinkfd

/-! The two programs count the same, as long as every directory can be read. -/
namespace UnixCodes.DirCount

open Transition

/-- In whatever order the directories are listed, each program comes to its end with the totals of
the tree. -/
theorem counters_agree (base base' : FdTable Dir) (tree : Tree) (hread : tree.root.AllRead) :
    ((Ducfd.walk base tree.root).Ends (.start base tree.root) fun s =>
      s.Finished ∧ s.counts = tree.root.total) ∧
    ((Duclinkfd.walk base' tree.root).restrict fun _ a => a.MallocOk).Ends
      (.start base' tree.root) fun s => s.control = .done ∧ s.counts = tree.root.total :=
  ⟨Ducfd.walk_ends tree.named, Duclinkfd.walk_ends tree.named hread⟩

/-- A directory with a file, a subdirectory that has a socket in it, and one that cannot be
opened. -/
theorem counters_agree_small :
    ∃ tree : Tree, tree.root.total .dirCount = 2 ∧ tree.root.total .regularCount = 1 ∧
      tree.root.total .socketCount = 1 ∧ tree.root.total .fifoCount = 0 ∧
      ((Ducfd.walk .empty tree.root).Ends (.start .empty tree.root) fun s =>
        s.Finished ∧ s.counts = tree.root.total) ∧
      ((Duclinkfd.walk .empty tree.root).restrict fun _ a => a.MallocOk).Ends
        (.start .empty tree.root) fun s => s.control = .done ∧ s.counts = tree.root.total := by
  let sub : Entry := .mk "sub" .dir true true [.mk "s" .sock false false []]
  let shut : Entry := .mk "shut" .dir false true [.mk "p" .fifo false false []]
  let tree : Tree :=
    ⟨⟨true, [.mk "." .dir true true [], .mk "f" .reg false false [], sub, shut]⟩,
      show ∀ x ∈ _, _ by decide⟩
  exact ⟨tree, by decide, by decide, by decide, by decide,
    counters_agree .empty .empty tree (show ∀ x ∈ _, _ by decide)⟩

/-- Whatever directories cannot be read, `ducfd.c` counts the others and closes everything;
`duclinkfd.c` does so if and only if it comes to no such directory. -/
theorem complete_iff_allRead (base base' : FdTable Dir) (tree : Tree) :
    ((Ducfd.walk base tree.root).Ends (.start base tree.root) fun s =>
      s.Finished ∧ s.counts = tree.root.total ∧ s.table.file = base.file) ∧
    ((Duclinkfd.walk base' tree.root).restrict fun _ a => a.MallocOk).Ends
      (.start base' tree.root) fun s =>
        s.control = .done ∧ (Duclinkfd.Complete base' tree.root s ↔ tree.root.AllRead) :=
  ⟨Ducfd.walk_outcome tree.named, Duclinkfd.walk_outcome tree.named⟩

/-- A directory that cannot be read, and one with a file. -/
def unreadTree : Tree where
  root := ⟨true, [.mk "a" .dir true false [], .mk "b" .dir true true [.mk "f" .reg false false []]]⟩
  named := show ∀ x ∈ _, _ by decide

theorem exists_run_step {base : FdTable Dir} {root : Dir} {P : Duclinkfd.State → Prop}
    {s t : Duclinkfd.State} {a : Duclinkfd.Action} {r : Except Fault Duclinkfd.State}
    (hs : Duclinkfd.Step s a r) (hmalloc : a.MallocOk) (hr : r = .ok t)
    (h : ∃ xs u, ((Duclinkfd.walk base root).restrict fun _ a => a.MallocOk).Run t xs u ∧ P u) :
    ∃ xs u, ((Duclinkfd.walk base root).restrict fun _ a => a.MallocOk).Run s xs u ∧ P u := by
  obtain ⟨xs, u, hrun, hp⟩ := h
  cases hr
  exact ⟨a :: xs, u, .stepL ⟨hmalloc, hs⟩ hrun, hp⟩

/-- The first directory cannot be read, and the file in the second one is not counted. -/
theorem bad_directory_stops :
    ¬ ∀ (base : FdTable Dir) (tree : Tree),
      ((Duclinkfd.walk base tree.root).restrict fun _ a => a.MallocOk).Ends
        (.start base tree.root) fun s => s.control = .done ∧ s.counts = tree.root.total := by
  intro hall
  have hrun : ∃ xs s, ((Duclinkfd.walk .empty unreadTree.root).restrict
      fun _ a => a.MallocOk).Run (.start .empty unreadTree.root) xs s ∧
        s.control = .done ∧ s.counts .regularCount = 0 := by
    refine exists_run_step (.fdopendir rfl rfl rfl rfl _ (.refl _)) trivial rfl ?_
    refine exists_run_step (.readdir rfl rfl true) rfl rfl ?_
    refine exists_run_step (.readdir rfl rfl true) rfl rfl ?_
    refine exists_run_step (.closedir rfl rfl) trivial rfl ?_
    refine exists_run_step (.fdopendirError rfl rfl rfl rfl) trivial rfl ?_
    exact ⟨[], _, .refl, rfl, rfl⟩
  obtain ⟨xs, s, hrun, hdone, hcount⟩ := hrun
  obtain ⟨n, hn⟩ := hall .empty unreadTree
  have hend := (hn xs s hrun).2 fun a t hs => Duclinkfd.no_step_of_done hdone hs.2
  have htotal : unreadTree.root.total .regularCount = 1 := by decide
  rw [hend.2, htotal] at hcount
  cases hcount

end UnixCodes.DirCount
