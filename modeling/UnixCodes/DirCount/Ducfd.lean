import UnixCodes.DirCount.Tree
import UnixCodes.Lib.FdTable
import UnixCodes.Lib.Transition

/-! `caculate_dir` of `ducfd.c`, which calls itself for each subdirectory. -/
namespace UnixCodes.DirCount.Ducfd

open Transition

/-- A call that is reading its directory: its argument, the file that it opened its stream on, and
what `readdir` has still to return. -/
structure Frame where
  fd : ℕ
  file : OpenFile Dir
  rest : List Entry

/-- Before `fdopendir`, at `readdir` in the innermost call, or back from a call. -/
inductive Control
  | call (fd : ℕ) (file : OpenFile Dir)
  | loop
  | ret (newfd : ℕ)

structure State where
  table : FdTable Dir
  counts : Counter → ℕ
  frames : List Frame
  control : Control

namespace State

/-- The descriptor of the next call, with the file that the program takes it for. -/
def uses (s : State) : Option (ℕ × OpenFile Dir) :=
  match s.control, s.frames with
  | .call fd file, _ => some (fd, file)
  | .loop, f :: _ => some (f.fd, f.file)
  | _, _ => none

/-- `readdir` has returned `e` to the call `f`. -/
def visited (s : State) (f : Frame) (fs : List Frame) (e : Entry) (rest : List Entry) : State :=
  let (counts, opened) := visit f.file.contents s.counts e
  let s := { s with counts := counts, frames := { f with rest := rest } :: fs }
  match opened with
  | none => s
  | some d =>
    { s with table := s.table.openFile d, control := .call s.table.lowest (s.table.fresh d) }

/-- `main` has opened the directory and calls `caculate_dir`. -/
def start (base : FdTable Dir) (root : Dir) : State where
  table := base.openFile root
  counts := 0
  frames := []
  control := .call base.lowest (base.fresh root)

/-- The call from `main` has returned. -/
def Finished (s : State) : Prop := s.frames = [] ∧ ∃ fd, s.control = .ret fd

end State

/-- A stream lists its directory in any order. -/
inductive Action
  | fdopendir (listing : List Entry)
  | main

inductive Step : State → Action → Except Fault State → Prop
  | stale {s : State} {fd : ℕ} {file : OpenFile Dir} (huses : s.uses = some (fd, file))
      (hstale : s.table.file fd ≠ some file) : Step s .main (.error .stale)
  | fdopendirError {s : State} {fd : ℕ} {file : OpenFile Dir} (hc : s.control = .call fd file)
      (hfile : s.table.file fd = some file) (hreads : file.contents.reads = false) :
      Step s .main (.ok { s with table := s.table.close fd, control := .ret fd })
  | fdopendir {s : State} {fd : ℕ} {file : OpenFile Dir} (hc : s.control = .call fd file)
      (hfile : s.table.file fd = some file) (hreads : file.contents.reads = true)
      (listing : List Entry) (hlisting : listing.Perm file.contents.entries) :
      Step s (.fdopendir listing)
        (.ok { s with frames := ⟨fd, file, listing⟩ :: s.frames, control := .loop })
  | readdir {s : State} {f : Frame} {fs : List Frame} {e : Entry} {rest : List Entry}
      (hc : s.control = .loop) (hframes : s.frames = f :: fs)
      (hfile : s.table.file f.fd = some f.file) (hrest : f.rest = e :: rest) :
      Step s .main (.ok (s.visited f fs e rest))
  | closedir {s : State} {f : Frame} {fs : List Frame} (hc : s.control = .loop)
      (hframes : s.frames = f :: fs) (hfile : s.table.file f.fd = some f.file)
      (hrest : f.rest = []) :
      Step s .main (.ok
        { s with
          table := (s.table.close f.fd).close f.fd
          frames := fs
          control := .ret f.fd })
  | close {s : State} {newfd : ℕ} (hc : s.control = .ret newfd) (hframes : s.frames ≠ []) :
      Step s .main (.ok { s with table := s.table.close newfd, control := .loop })

/-- One run of the program on one tree. -/
def walk (base : FdTable Dir) (root : Dir) : System State Action where
  Initial s := s = .start base root
  Step s a s' := Step s a (.ok s')

universe u
variable {M : Type u} [AddCommMonoid M] {g : Entry → M} {c : M} {base : FdTable Dir} {root : Dir}
  {s t : State} {a : Action}

namespace State

/-- The descriptors that the walk holds, the innermost call first. -/
def held (s : State) : List (ℕ × OpenFile Dir) :=
  (match s.control with
    | .call fd file => [(fd, file)]
    | _ => []) ++ s.frames.map fun f => (f.fd, f.file)

/-- What the calls have before them. -/
def due (g : Entry → M) (c : M) (s : State) : M :=
  (match s.control with
    | .call _ file => file.contents.due g c
    | _ => 0) + (s.frames.map fun f => (f.rest.map (Entry.due g c)).sum).sum

/-- A bound for the steps that are left. -/
def size (s : State) : ℕ :=
  s.due (fun _ => 1) 3 + 2 * s.frames.length +
    match s.control with
    | .ret _ => 1
    | _ => 0

end State

/-- Each call has its own descriptor, which still refers to its directory; the counters and what
is due add up to the total. -/
structure Valid (base : FdTable Dir) (root : Dir) (s : State) : Prop where
  holds : FdTable.Holds base s.held s.table
  named : ∀ x ∈ s.held, x.2.contents.WellNamed
  reading : ∀ f ∈ s.frames, f.file.contents.reads = true ∧
    ∀ e ∈ f.rest, e ∈ f.file.contents.entries
  inside : s.control = .loop → s.frames ≠ []
  returned : ∀ fd, s.control = .ret fd → s.table.file fd = none
  balance : s.counts + s.due Entry.one 0 = root.total

theorem held_of_call {fd : ℕ} {file : OpenFile Dir} (hc : s.control = .call fd file) :
    s.held = (fd, file) :: s.frames.map fun f => (f.fd, f.file) := by
  simp [State.held, hc]

theorem held_of_loop {f : Frame} {fs : List Frame} (hc : s.control = .loop)
    (hframes : s.frames = f :: fs) :
    s.held = (f.fd, f.file) :: fs.map fun f => (f.fd, f.file) := by
  simp [State.held, hc, hframes]

theorem valid_reading {f : Frame} {fs : List Frame} (h : Valid base root s)
    (hc : s.control = .loop) (hframes : s.frames = f :: fs) : f.file.contents.WellNamed ∧
      f.file.contents.reads = true ∧ ∀ e ∈ f.rest, e ∈ f.file.contents.entries := by
  refine ⟨h.named (f.fd, f.file) ?_, h.reading f (hframes ▸ List.mem_cons_self)⟩
  rw [held_of_loop hc hframes]
  exact List.mem_cons_self

theorem valid_fdopendirError {fd : ℕ} {file : OpenFile Dir} (h : Valid base root s)
    (hc : s.control = .call fd file) (hreads : file.contents.reads = false) :
    Valid base root { s with table := s.table.close fd, control := .ret fd } ∧
      State.size { s with table := s.table.close fd, control := .ret fd } < s.size := by
  have hheld := held_of_call hc
  have hholds := h.holds
  rw [hheld] at hholds
  have hbalance := h.balance
  refine ⟨⟨?_, ?_, h.reading, ?_, ?_, ?_⟩, ?_⟩
  · simpa [State.held] using hholds.close
  · intro x hx
    apply h.named
    rw [hheld]
    exact List.mem_cons_of_mem _ (by simpa [State.held] using hx)
  · intro he
    cases he
  · intro fd' he
    cases he
    exact FdTable.file_close_self
  · simpa [State.due, hc, Dir.due_of_not_reads hreads] using hbalance
  · simp only [State.size, State.due, hc, Dir.due_of_not_reads hreads]
    omega

theorem valid_fdopendir {fd : ℕ} {file : OpenFile Dir} {listing : List Entry}
    (h : Valid base root s) (hc : s.control = .call fd file)
    (hreads : file.contents.reads = true) (hlisting : listing.Perm file.contents.entries) :
    Valid base root { s with frames := ⟨fd, file, listing⟩ :: s.frames, control := .loop } ∧
      State.size { s with frames := ⟨fd, file, listing⟩ :: s.frames, control := .loop } <
        s.size := by
  have hheld : State.held { s with frames := ⟨fd, file, listing⟩ :: s.frames, control := .loop } =
      s.held := by
    simp [State.held, hc]
  have hdue {M : Type} [AddCommMonoid M] (g : Entry → M) (c : M) : s.due g c =
      c + State.due g c { s with frames := ⟨fd, file, listing⟩ :: s.frames, control := .loop } := by
    simp only [State.due, hc, Dir.due_of_reads hreads hlisting, List.map_cons, List.sum_cons]
    abel
  refine ⟨⟨?_, ?_, ?_, ?_, ?_, ?_⟩, ?_⟩
  · rw [hheld]
    exact h.holds
  · rw [hheld]
    exact h.named
  · intro f hf
    rcases List.mem_cons.mp hf with rfl | hf
    · exact ⟨hreads, fun e he => hlisting.mem_iff.mp he⟩
    · exact h.reading f hf
  · exact fun _ => List.cons_ne_nil _ _
  · intro fd' he
    cases he
  · rw [← h.balance, hdue, zero_add]
  · simp only [State.size, hdue, hc, List.length_cons]
    omega

/-- The entry is counted, and the call for its directory takes over what is due there. -/
theorem valid_readdir {f : Frame} {fs : List Frame} {e : Entry} {rest : List Entry}
    (h : Valid base root s) (hc : s.control = .loop) (hframes : s.frames = f :: fs)
    (hrest : f.rest = e :: rest) :
    Valid base root (s.visited f fs e rest) ∧ (s.visited f fs e rest).size < s.size := by
  have hheld := held_of_loop hc hframes
  obtain ⟨hnamed, hreads, hsub⟩ := valid_reading h hc hframes
  rw [hrest, List.forall_mem_cons] at hsub
  obtain ⟨he, hsub⟩ := hsub
  have hvisit := visit_eq s.counts hnamed he
  have hreading : ∀ f' ∈ { f with rest := rest } :: fs, f'.file.contents.reads = true ∧
      ∀ e ∈ f'.rest, e ∈ f'.file.contents.entries := by
    intro f' hf'
    rcases List.mem_cons.mp hf' with rfl | hf'
    · exact ⟨hreads, hsub⟩
    · exact h.reading f' (hframes ▸ List.mem_cons_of_mem _ hf')
  have hbefore {M : Type} [AddCommMonoid M] (g : Entry → M) (c : M) : s.due g c =
      e.due g c + ((rest.map (Entry.due g c)).sum +
        (fs.map fun f => (f.rest.map (Entry.due g c)).sum).sum) := by
    simp only [State.due, hc, hframes, hrest, List.map_cons, List.sum_cons]
    abel
  have hbalance := h.balance
  rw [hbefore] at hbalance
  unfold State.visited
  rw [hvisit]
  cases henter : e.enter with
  | none =>
    rw [Entry.due_of_not_enter henter] at hbalance
    refine ⟨⟨?_, ?_, hreading, fun _ => List.cons_ne_nil _ _, ?_, ?_⟩, ?_⟩
    · simpa [State.held, hc, hframes] using h.holds
    · simpa [State.held, hc, hframes] using h.named
    · intro fd hfd
      simp [hc] at hfd
    · rw [← hbalance]
      simp only [State.due, hc, List.map_cons, List.sum_cons]
      abel
    · simp only [State.size, State.due, hc, hframes, hrest, Entry.due_of_not_enter henter,
        List.map_cons, List.sum_cons, List.length_cons]
      omega
  | some d =>
    rw [Entry.due_of_enter henter] at hbalance
    refine ⟨⟨?_, ?_, hreading, fun _ => List.cons_ne_nil _ _, ?_, ?_⟩, ?_⟩
    · have hholds := h.holds.openFile d
      rw [hheld] at hholds
      simpa [State.held] using hholds
    · have hd : d.WellNamed := hnamed.enter hreads he henter
      have hall := h.named
      rw [hheld] at hall
      simpa [State.held, FdTable.fresh, hd] using hall
    · intro fd hfd
      cases hfd
    · rw [← hbalance]
      simp only [State.due, FdTable.fresh, List.map_cons, List.sum_cons]
      abel
    · simp only [State.size, State.due, FdTable.fresh, hc, hframes, hrest,
        Entry.due_of_enter henter, List.map_cons, List.sum_cons, List.length_cons]
      omega

/-- `closedir` has closed the descriptor, so that the two calls of `close` find it free. -/
theorem valid_closedir {f : Frame} {fs : List Frame} (h : Valid base root s)
    (hc : s.control = .loop) (hframes : s.frames = f :: fs) (hrest : f.rest = []) :
    Valid base root { s with
      table := (s.table.close f.fd).close f.fd, frames := fs, control := .ret f.fd } ∧
    State.size { s with
      table := (s.table.close f.fd).close f.fd, frames := fs, control := .ret f.fd } < s.size := by
  have hheld := held_of_loop hc hframes
  have hholds := h.holds
  rw [hheld] at hholds
  rw [FdTable.close_close]
  refine ⟨⟨?_, ?_, ?_, ?_, ?_, ?_⟩, ?_⟩
  · simpa [State.held] using hholds.close
  · intro x hx
    apply h.named
    rw [hheld]
    exact List.mem_cons_of_mem _ (by simpa [State.held] using hx)
  · intro f' hf'
    exact h.reading f' (hframes ▸ List.mem_cons_of_mem _ hf')
  · intro he
    cases he
  · intro fd hfd
    cases hfd
    exact FdTable.file_close_self
  · simpa [State.due, hc, hframes, hrest] using h.balance
  · simp only [State.size, State.due, hc, hframes, hrest, List.map_cons, List.map_nil,
      List.sum_cons, List.sum_nil, List.length_cons]
    omega

theorem valid_close {newfd : ℕ} (h : Valid base root s) (hc : s.control = .ret newfd)
    (hframes : s.frames ≠ []) :
    Valid base root { s with table := s.table.close newfd, control := .loop } ∧
      State.size { s with table := s.table.close newfd, control := .loop } < s.size := by
  rw [FdTable.close_of_none (h.returned newfd hc)]
  refine ⟨⟨?_, ?_, h.reading, fun _ => hframes, ?_, ?_⟩, ?_⟩
  · simpa [State.held, hc] using h.holds
  · simpa [State.held, hc] using h.named
  · intro fd hfd
    cases hfd
  · simpa [State.due, hc] using h.balance
  · simp only [State.size, State.due, hc]
    omega

/-- The descriptor in use is the last one that was opened. -/
theorem held_of_uses {x : ℕ × OpenFile Dir} (huses : s.uses = some x) :
    ∃ held, s.held = x :: held := by
  unfold State.uses at huses
  split at huses
  · rename_i hc
    cases huses
    exact ⟨_, held_of_call hc⟩
  · rename_i hc hframes
    cases huses
    exact ⟨_, held_of_loop hc hframes⟩
  · cases huses

theorem uses_of_call {fd : ℕ} {file : OpenFile Dir} (h : Valid base root s)
    (huses : s.uses = some (fd, file)) : s.table.file fd = some file := by
  obtain ⟨held, hheld⟩ := held_of_uses huses
  apply h.holds.refers (fd, file)
  rw [hheld]
  exact List.mem_cons_self

/-- No step of a valid state uses a stale descriptor; it leads to a valid state and to the end. -/
theorem valid_step {r : Except Fault State} (hs : Step s a r) (h : Valid base root s) :
    ∃ t, r = .ok t ∧ Valid base root t ∧ t.size < s.size := by
  cases hs with
  | stale huses hstale => exact absurd (uses_of_call h huses) hstale
  | fdopendirError hc hfile hreads => exact ⟨_, rfl, valid_fdopendirError h hc hreads⟩
  | fdopendir hc hfile hreads listing hlisting =>
    exact ⟨_, rfl, valid_fdopendir h hc hreads hlisting⟩
  | readdir hc hframes hfile hrest => exact ⟨_, rfl, valid_readdir h hc hframes hrest⟩
  | closedir hc hframes hfile hrest => exact ⟨_, rfl, valid_closedir h hc hframes hrest⟩
  | close hc hframes => exact ⟨_, rfl, valid_close h hc hframes⟩

theorem valid_start (hroot : root.WellNamed) : Valid base root (.start base root) := by
  refine ⟨?_, ?_, ?_, ?_, ?_, ?_⟩
  · exact FdTable.Holds.nil.openFile root
  · intro x hx
    obtain rfl := List.mem_singleton.mp hx
    exact hroot
  · intro f hf
    cases hf
  · intro he
    cases he
  · intro fd hfd
    cases hfd
  · simp [State.start, State.due, FdTable.fresh, total_eq_due]

/-- A call that has not returned to `main` can go on. -/
theorem finished_of_stuck (h : Valid base root s) (hstuck : ∀ a t, ¬ (walk base root).Step s a t) :
    s.Finished := by
  cases hc : s.control with
  | call fd file =>
    have hfile : s.table.file fd = some file := uses_of_call h (by simp [State.uses, hc])
    cases hreads : file.contents.reads with
    | false => exact absurd (Step.fdopendirError hc hfile hreads) (hstuck _ _)
    | true => exact absurd (Step.fdopendir hc hfile hreads _ (.refl _)) (hstuck _ _)
  | loop =>
    cases hframes : s.frames with
    | nil => exact absurd hframes (h.inside hc)
    | cons f fs =>
      have hfile : s.table.file f.fd = some f.file :=
        uses_of_call h (by simp [State.uses, hc, hframes])
      cases hrest : f.rest with
      | nil => exact absurd (Step.closedir hc hframes hfile hrest) (hstuck _ _)
      | cons e rest => exact absurd (Step.readdir hc hframes hfile hrest) (hstuck _ _)
  | ret fd =>
    by_cases hframes : s.frames = []
    · exact ⟨hframes, fd, hc⟩
    · exact absurd (Step.close hc hframes) (hstuck _ _)

/-- Every run ends. Then the counters are the totals, and the table is what it was. -/
theorem walk_outcome (hroot : root.WellNamed) :
    (walk base root).Ends (.start base root) fun s =>
      s.Finished ∧ s.counts = root.total ∧ s.table.file = base.file := by
  apply System.ends_of_rank (I := fun s n => Valid base root s ∧ s.size = n) ?_ ?_
    ⟨valid_start hroot, rfl⟩
  · rintro s a t n hs ⟨h, rfl⟩
    obtain ⟨t', ht, hvalid, hlt⟩ := valid_step hs h
    cases ht
    exact ⟨_, hlt, hvalid, rfl⟩
  · rintro s n ⟨h, -⟩ hstuck
    have hfinished := finished_of_stuck h hstuck
    refine ⟨hfinished, ?_⟩
    obtain ⟨hframes, fd, hc⟩ := hfinished
    have hheld : s.held = [] := by simp [State.held, hframes, hc]
    have hbalance := h.balance
    refine ⟨?_, ?_⟩
    · simpa [State.due, hframes, hc] using hbalance
    · funext n
      apply h.holds.others
      simp [hheld]

/-- The counters end as the totals. -/
theorem walk_ends (hroot : root.WellNamed) :
    (walk base root).Ends (.start base root) fun s => s.Finished ∧ s.counts = root.total := by
  apply (walk_outcome hroot).imp
  rintro s ⟨hfinished, hcounts, -⟩
  exact ⟨hfinished, hcounts⟩

theorem valid_reachable (hroot : root.WellNamed) (hs : (walk base root).Reachable s) :
    Valid base root s := by
  apply System.reachable_invariant ?_ ?_ hs
  · rintro s rfl
    exact valid_start hroot
  · intro s a t hs h
    obtain ⟨t', ht, hvalid, -⟩ := valid_step hs h
    cases ht
    exact hvalid

end UnixCodes.DirCount.Ducfd
