import UnixCodes.DirCount.Tree
import UnixCodes.Lib.FdTable
import UnixCodes.Lib.Heap
import UnixCodes.Lib.LinkedList
import UnixCodes.Lib.Transition

/-! `caculate_dir` of `duclinkfd.c`, which keeps the subdirectories in a linked list. -/
namespace UnixCodes.DirCount.Duclinkfd

open Transition LinkedList

/-- A `struct FD_LINK`, with the file that its descriptor was opened on. -/
structure Node where
  fd : ℕ
  file : OpenFile Dir
  next : Option ℕ

/-- At the head of the `do` loop, or at `readdir` with what it has still to return. -/
inductive Control
  | head
  | loop (fd : ℕ) (file : OpenFile Dir) (rest : List Entry)
  | done

structure State where
  table : FdTable Dir
  heap : Heap Node
  counts : Counter → ℕ
  dlk : ℕ
  latest : ℕ
  control : Control

namespace State

/-- The descriptor of the next call, with the file that the program takes it for. -/
def uses (s : State) : Option (ℕ × OpenFile Dir) :=
  match s.control with
  | .head => (s.heap.block s.dlk).map fun n => (n.fd, n.file)
  | .loop fd file _ => some (fd, file)
  | .done => none

/-- `newdlk` goes behind `latest`. -/
def append (s : State) (newfd : ℕ) (file : OpenFile Dir) : Except Fault State :=
  let newdlk := s.heap.next
  let heap := s.heap.alloc ⟨newfd, file, none⟩
  match heap.block s.latest with
  | none => .error .dangling
  | some n =>
    .ok { s with heap := heap.store s.latest { n with next := some newdlk }, latest := newdlk }

/-- `readdir` has returned `e`; `malloc` tells whether there is memory for a node. -/
def visited (s : State) (fd : ℕ) (file : OpenFile Dir) (e : Entry) (rest : List Entry)
    (malloc : Bool) : Except Fault State :=
  let (counts, opened) := visit file.contents s.counts e
  let s := { s with counts := counts, control := .loop fd file rest }
  match opened with
  | none => .ok s
  | some d =>
    let newfd := s.table.lowest
    if malloc then { s with table := s.table.openFile d }.append newfd (s.table.fresh d)
    else .ok { s with table := (s.table.openFile d).close newfd }

/-- The end of the `do` loop, which frees the node that `dlk` has pointed to. -/
def advance (s : State) : Except Fault State :=
  match s.heap.block s.dlk with
  | none => .error .dangling
  | some n =>
    match n.next with
    | some p => .ok { s with heap := s.heap.free s.dlk, dlk := p, control := .head }
    | none => .ok { s with heap := s.heap.free s.dlk, control := .done }

/-- `main` has opened the directory and calls `caculate_dir` with a list of one node. -/
def start (base : FdTable Dir) (root : Dir) : State where
  table := base.openFile root
  heap := Heap.empty.alloc ⟨base.lowest, base.fresh root, none⟩
  counts := 0
  dlk := 0
  latest := 0
  control := .head

end State

/-- A stream lists its directory in any order. -/
inductive Action
  | fdopendir (listing : List Entry)
  | readdir (malloc : Bool)
  | main

def Action.MallocOk : Action → Prop
  | .readdir malloc => malloc = true
  | _ => True

inductive Step : State → Action → Except Fault State → Prop
  | dangling {s : State} (hc : s.control = .head) (hnode : s.heap.block s.dlk = none) :
      Step s .main (.error .dangling)
  | stale {s : State} {fd : ℕ} {file : OpenFile Dir} (huses : s.uses = some (fd, file))
      (hstale : s.table.file fd ≠ some file) : Step s .main (.error .stale)
  | fdopendirError {s : State} {n : Node} (hc : s.control = .head)
      (hnode : s.heap.block s.dlk = some n) (hfile : s.table.file n.fd = some n.file)
      (hreads : n.file.contents.reads = false) :
      Step s .main (.ok { s with table := s.table.close n.fd, control := .done })
  | fdopendir {s : State} {n : Node} (hc : s.control = .head)
      (hnode : s.heap.block s.dlk = some n) (hfile : s.table.file n.fd = some n.file)
      (hreads : n.file.contents.reads = true) (listing : List Entry)
      (hlisting : listing.Perm n.file.contents.entries) :
      Step s (.fdopendir listing) (.ok { s with control := .loop n.fd n.file listing })
  | readdir {s : State} {fd : ℕ} {file : OpenFile Dir} {e : Entry} {rest : List Entry}
      (hc : s.control = .loop fd file (e :: rest)) (hfile : s.table.file fd = some file)
      (malloc : Bool) : Step s (.readdir malloc) (s.visited fd file e rest malloc)
  | closedir {s : State} {fd : ℕ} {file : OpenFile Dir} (hc : s.control = .loop fd file [])
      (hfile : s.table.file fd = some file) :
      Step s .main ({ s with table := (s.table.close fd).close fd } : State).advance

/-- One run of the program on one tree. -/
def walk (base : FdTable Dir) (root : Dir) : System State Action where
  Initial s := s = .start base root
  Step s a s' := Step s a (.ok s')

/-- A node of the list with the directory it stands for. -/
structure Item where
  ptr : ℕ
  fd : ℕ
  file : OpenFile Dir

def Item.held (x : Item) : ℕ × OpenFile Dir := (x.fd, x.file)

/-- The `next` pointers of the heap. -/
def links (heap : Heap Node) (p : ℕ) : Option ℕ := (heap.block p).bind Node.next

/-- The list from `dlk`, which ends at `latest`. -/
structure Linked (heap : Heap Node) (dlk latest : ℕ) (q : List Item) : Prop where
  forward : Segment (links heap) (some dlk) (q.map Item.ptr) none
  last : ∃ l z, q = l ++ [z] ∧ z.ptr = latest
  node : ∀ x ∈ q, ∃ n, heap.block x.ptr = some n ∧ n.fd = x.fd ∧ n.file = x.file

universe u
variable {M : Type u} [AddCommMonoid M] {g : Entry → M} {c : M} {base : FdTable Dir} {root : Dir}
  {s t : State} {a : Action} {heap : Heap Node} {dlk latest p : ℕ} {q : List Item} {x : Item}
  {n : Node}

theorem Linked.head (h : Linked heap dlk latest q) : ∃ x q', q = x :: q' ∧ x.ptr = dlk := by
  cases q with
  | nil => simpa using h.forward
  | cons x q' =>
    refine ⟨x, q', rfl, ?_⟩
    simpa using h.forward.1.symm

theorem links_of_block (h : heap.block p = some n) : links heap p = n.next := by
  rw [links, h]
  rfl

/-- The new node is in the list, and `latest` points to it. -/
theorem Linked.append (h : Linked heap dlk latest q) (newfd : ℕ) (file : OpenFile Dir) :
    ∃ n, (heap.alloc ⟨newfd, file, none⟩).block latest = some n ∧
      Linked ((heap.alloc ⟨newfd, file, none⟩).store latest { n with next := some heap.next }) dlk
        heap.next (q ++ [⟨heap.next, newfd, file⟩]) := by
  obtain ⟨l, z, rfl, rfl⟩ := h.last
  obtain ⟨n, hn, hfd, hfile⟩ := h.node z (by simp)
  have hn' : (heap.alloc ⟨newfd, file, none⟩).block z.ptr = some n := Heap.block_alloc hn
  refine ⟨n, hn', ?_, ⟨_, _, rfl, rfl⟩, ?_⟩
  · have hforward := h.forward
    simp only [List.map_append, List.map_cons, List.map_nil] at hforward ⊢
    apply segment_push hforward
    · intro p hp
      have hne : p ≠ z.ptr := by
        rintro rfl
        exact notMem_of_nodup_concat (segment_nodup hforward) hp
      obtain ⟨y, hy, rfl⟩ := List.mem_map.mp hp
      obtain ⟨m, hm, -⟩ := h.node y (by simp [hy])
      rw [links_of_block hm, links_of_block]
      rw [Heap.block_store_of_ne hne]
      exact Heap.block_alloc hm
    · rw [links_of_block (Heap.block_store_self hn')]
    · have hne : heap.next ≠ z.ptr := (Heap.ne_next hn).symm
      rw [links, Heap.block_store_of_ne hne, Heap.block_alloc_next]
      rfl
  · intro y hy
    rcases List.mem_append.mp hy with hy | hy
    · obtain ⟨m, hm, hmfd, hmfile⟩ := h.node y hy
      by_cases he : y.ptr = z.ptr
      · rw [he] at hm ⊢
        obtain rfl := Option.some.inj (hn.symm.trans hm)
        exact ⟨_, Heap.block_store_self hn', hmfd, hmfile⟩
      · refine ⟨m, ?_, hmfd, hmfile⟩
        rw [Heap.block_store_of_ne he]
        exact Heap.block_alloc hm
    · obtain rfl := List.mem_singleton.mp hy
      refine ⟨⟨newfd, file, none⟩, ?_, rfl, rfl⟩
      rw [Heap.block_store_of_ne (Heap.ne_next hn).symm]
      exact Heap.block_alloc_next

/-- Freeing the head leaves the rest of the list, or nothing if it was `latest` as well. -/
theorem Linked.advance (h : Linked heap dlk latest (x :: q)) :
    ∃ n, heap.block dlk = some n ∧
      (q = [] ∧ n.next = none ∨ ∃ p, n.next = some p ∧ Linked (heap.free dlk) p latest q) := by
  obtain ⟨n, hn, -⟩ := h.node x List.mem_cons_self
  obtain ⟨hx, hforward⟩ := h.forward
  obtain rfl := Option.some.inj hx
  have hnodup := segment_nodup h.forward
  rw [List.map_cons, List.nodup_cons] at hnodup
  refine ⟨n, hn, ?_⟩
  rw [links_of_block hn] at hforward
  cases q with
  | nil =>
    left
    exact ⟨rfl, hforward⟩
  | cons y q =>
    right
    have hkept {p : ℕ} (hp : p ∈ (y :: q).map Item.ptr) :
        (heap.free x.ptr).block p = heap.block p := by
      apply Heap.block_free_of_ne
      rintro rfl
      exact hnodup.1 hp
    refine ⟨y.ptr, hforward.1, ?_, ?_, ?_⟩
    · rw [← hforward.1]
      apply segment_congr ?_ hforward
      intro p hp
      rw [links, links, hkept hp]
    · obtain ⟨l, z, hl, hz⟩ := h.last
      cases l with
      | nil => simp at hl
      | cons x' l =>
        rw [List.cons_append, List.cons.injEq] at hl
        exact ⟨l, z, hl.2, hz⟩
    · intro y' hy'
      rw [hkept (List.mem_map_of_mem hy')]
      exact h.node y' (List.mem_cons_of_mem _ hy')

/-- What the list has before it; the head is being read in the loop. -/
def Control.due (g : Entry → M) (c : M) (q : List Item) : Control → M
  | .head => (q.map fun x => x.file.contents.due g c).sum
  | .loop _ _ rest =>
    (rest.map (Entry.due g c)).sum + (q.tail.map fun x => x.file.contents.due g c).sum
  | .done => 0

/-- A bound for the steps that are left. -/
def Control.size (q : List Item) (control : Control) : ℕ :=
  control.due (fun _ => 1) 3 q +
    match control with
    | .loop _ _ _ => 2
    | _ => 0

/-- The directories that the list still leads to; the head is being read in the loop. -/
def Control.ahead (q : List Item) : Control → List Dir
  | .head => q.flatMap fun x => x.file.contents.dirs
  | .loop _ _ rest => entriesDirs rest ++ q.tail.flatMap fun x => x.file.contents.dirs
  | .done => []

/-- The list holds the nodes and the descriptors of the walk, which still refer to their
directories; the directories that cannot be read lie ahead; the counters and what is due add up to
the total. -/
structure Valid (base : FdTable Dir) (root : Dir) (s : State) (q : List Item) : Prop where
  linked : s.control ≠ .done → Linked s.heap s.dlk s.latest q
  ended : s.control = .done → q = []
  nodes : ∀ p, (s.heap.block p).isSome → p ∈ q.map Item.ptr
  holds : FdTable.Holds base (q.map Item.held) s.table
  named : ∀ x ∈ q, x.file.contents.WellNamed
  reading : ∀ fd file rest, s.control = .loop fd file rest → (∃ p q', q = ⟨p, fd, file⟩ :: q') ∧
    file.contents.reads = true ∧ ∀ e ∈ rest, e ∈ file.contents.entries
  ahead : ∀ d, d.reads = false → (d ∈ s.control.ahead q ↔ d ∈ root.dirs)
  balance : s.counts + s.control.due Entry.one 0 q = root.total

/-- The walk has given up at a directory that cannot be read. -/
structure Abandoned (root : Dir) (s : State) : Prop where
  done : s.control = .done
  unread : ¬ root.AllRead
  nodes : s.heap.live.Nonempty

theorem no_step_of_done {r : Except Fault State} (hdone : s.control = .done) :
    ¬ Step s a r := by
  intro hs
  cases hs with
  | stale huses => simp [State.uses, hdone] at huses
  | dangling hc | fdopendirError hc | fdopendir hc | readdir hc | closedir hc => simp [hdone] at hc

theorem valid_fdopendir {listing : List Entry} (h : Valid base root s q) (hc : s.control = .head)
    (hnode : s.heap.block s.dlk = some n) (hreads : n.file.contents.reads = true)
    (hlisting : listing.Perm n.file.contents.entries) :
    Valid base root { s with control := .loop n.fd n.file listing } q ∧
      Control.size q (.loop n.fd n.file listing) < s.control.size q := by
  have hlinked := h.linked (by simp [hc])
  obtain ⟨⟨p, fd, file⟩, q, rfl, rfl⟩ := hlinked.head
  obtain ⟨m, hm, rfl, rfl⟩ := hlinked.node _ List.mem_cons_self
  obtain rfl := Option.some.inj (hnode.symm.trans hm)
  have hdue {M : Type} [AddCommMonoid M] (g : Entry → M) (c : M) :
      Control.head.due g c (⟨s.dlk, n.fd, n.file⟩ :: q) =
        c + Control.due g c (⟨s.dlk, n.fd, n.file⟩ :: q) (.loop n.fd n.file listing) := by
    simp only [Control.due, List.map_cons, List.sum_cons, List.tail_cons,
      Dir.due_of_reads hreads hlisting]
    abel
  refine ⟨⟨fun _ => hlinked, ?_, h.nodes, h.holds, h.named, ?_, ?_, ?_⟩, ?_⟩
  · intro he
    cases he
  · rintro fd file rest he
    cases he
    exact ⟨⟨_, _, rfl⟩, hreads, fun e he => hlisting.mem_iff.mp he⟩
  · intro d hd
    rw [← h.ahead d hd, hc]
    simp only [Control.ahead, List.tail_cons, List.flatMap_cons, List.mem_append]
    exact or_congr_left (mem_dirs_of_unread hreads hlisting hd)
  · rw [← h.balance, hc, hdue, zero_add]
  · simp only [Control.size, hc, hdue]
    omega

/-- The node of the directory and those behind it stay allocated. -/
theorem valid_fdopendirError (h : Valid base root s q) (hc : s.control = .head)
    (hnode : s.heap.block s.dlk = some n) (hreads : n.file.contents.reads = false) :
    Abandoned root { s with table := s.table.close n.fd, control := .done } := by
  have hlinked := h.linked (by simp [hc])
  obtain ⟨x, q, rfl, hx⟩ := hlinked.head
  obtain ⟨m, hm, -, hfile⟩ := hlinked.node x List.mem_cons_self
  rw [hx] at hm
  obtain rfl := Option.some.inj (hnode.symm.trans hm)
  refine ⟨rfl, ?_, ⟨s.dlk, ?_⟩⟩
  · intro hall
    have hmem : n.file.contents ∈ s.control.ahead (x :: q) := by
      rw [hc, hfile]
      exact List.mem_append_left _ mem_dirs_self
    have hread := hall _ ((h.ahead _ hreads).mp hmem)
    cases hreads.symm.trans hread
  · simp [hnode]

/-- The entry is counted, and a directory that has been opened is appended to the list. -/
theorem valid_readdir {fd : ℕ} {file : OpenFile Dir} {e : Entry} {rest : List Entry}
    (h : Valid base root s q) (hc : s.control = .loop fd file (e :: rest)) :
    ∃ t q', s.visited fd file e rest true = .ok t ∧ Valid base root t q' ∧
      t.control.size q' < s.control.size q := by
  obtain ⟨⟨p, q, rfl⟩, hreads, hsub⟩ := h.reading fd file (e :: rest) hc
  have hnamed : file.contents.WellNamed := h.named _ List.mem_cons_self
  have he : e ∈ file.contents.entries := hsub e List.mem_cons_self
  have hrest : ∀ e' ∈ rest, e' ∈ file.contents.entries :=
    fun e' he' => hsub e' (List.mem_cons_of_mem _ he')
  have hlinked := h.linked (by simp [hc])
  have hahead := h.ahead
  have hbalance := h.balance
  simp only [hc, Control.ahead, List.tail_cons, entriesDirs] at hahead
  unfold State.visited
  rw [visit_eq s.counts hnamed he]
  cases henter : e.enter with
  | none =>
    refine ⟨_, ⟨p, fd, file⟩ :: q, rfl,
      ⟨fun _ => hlinked, ?_, h.nodes, h.holds, h.named, ?_, ?_, ?_⟩, ?_⟩
    · intro heq
      cases heq
    · rintro fd' file' rest' heq
      cases heq
      exact ⟨⟨_, _, rfl⟩, hreads, hrest⟩
    · rw [dirs_of_not_enter henter, List.nil_append] at hahead
      exact hahead
    · rw [← hbalance]
      simp only [hc, Control.due, List.map_cons, List.sum_cons, Entry.due_of_not_enter henter]
      abel
    · simp only [hc, Control.size, Control.due, List.map_cons, List.sum_cons,
        Entry.due_of_not_enter henter]
      omega
  | some d =>
    obtain ⟨n, hn, happend⟩ := hlinked.append s.table.lowest (s.table.fresh d)
    simp only [if_true, State.append, hn]
    refine ⟨_, ⟨p, fd, file⟩ :: q ++ [⟨s.heap.next, s.table.lowest, s.table.fresh d⟩], rfl,
      ⟨fun _ => happend, ?_, ?_, ?_, ?_, ?_, ?_, ?_⟩, ?_⟩
    · intro heq
      cases heq
    · intro p' hp'
      rw [← Heap.mem_live, Heap.live_store, Heap.live_alloc, Finset.mem_insert] at hp'
      rw [List.map_append, List.mem_append]
      rcases hp' with rfl | hp'
      · exact .inr List.mem_cons_self
      · exact .inl (h.nodes p' (Heap.mem_live.mp hp'))
    · have hholds := h.holds.openFile d
      apply hholds.perm
      rw [List.map_append]
      exact (List.perm_append_singleton _ _).symm
    · intro x hx
      rcases List.mem_append.mp hx with hx | hx
      · exact h.named x hx
      · obtain rfl := List.mem_singleton.mp hx
        exact hnamed.enter hreads he henter
    · rintro fd' file' rest' heq
      cases heq
      exact ⟨⟨_, _, rfl⟩, hreads, hrest⟩
    · intro d' hd'
      rw [← hahead d' hd', dirs_of_enter henter]
      simp only [Control.ahead, List.cons_append, List.tail_cons, List.flatMap_append,
        List.flatMap_cons, List.flatMap_nil, List.append_nil, FdTable.fresh, List.mem_append]
      tauto
    · rw [← hbalance]
      simp only [hc, Control.due, List.map_cons, List.sum_cons, Entry.due_of_enter henter,
        List.cons_append, List.tail_cons, List.map_append, List.sum_append, List.map_nil,
        List.sum_nil, FdTable.fresh]
      abel
    · simp only [hc, Control.size, Control.due, List.map_cons, List.sum_cons,
        Entry.due_of_enter henter, List.cons_append, List.tail_cons, List.map_append,
        List.sum_append, List.map_nil, List.sum_nil, FdTable.fresh]
      omega

/-- The directory is done with; the list goes on, or has been read to its end. -/
theorem valid_closedir {fd : ℕ} {file : OpenFile Dir} (h : Valid base root s q)
    (hc : s.control = .loop fd file []) :
    ∃ t q', ({ s with table := (s.table.close fd).close fd } : State).advance = .ok t ∧
      Valid base root t q' ∧ t.control.size q' < s.control.size q := by
  obtain ⟨⟨p, q, rfl⟩, -⟩ := h.reading fd file [] hc
  have hlinked := h.linked (by simp [hc])
  obtain ⟨y, _, heq, hp⟩ := hlinked.head
  obtain ⟨rfl, rfl⟩ := List.cons.inj heq
  obtain ⟨n, hn, hnext⟩ := hlinked.advance
  have hholds : FdTable.Holds base (q.map Item.held) (s.table.close fd) := h.holds.close
  have hnodes : ∀ p', ((s.heap.free s.dlk).block p').isSome → p' ∈ q.map Item.ptr := by
    intro p' hp'
    rw [← Heap.mem_live, Heap.live_free, Finset.mem_erase] at hp'
    rcases List.mem_cons.mp (h.nodes p' (Heap.mem_live.mp hp'.2)) with he | hmem
    · exact absurd (he.trans hp) hp'.1
    · exact hmem
  have hahead := h.ahead
  have hbalance := h.balance
  simp only [hc, Control.ahead, entriesDirs, List.nil_append] at hahead
  rw [FdTable.close_close]
  unfold State.advance
  simp only [hn]
  rcases hnext with ⟨rfl, hnone⟩ | ⟨p', hsome, hlinked'⟩
  · simp only [hnone]
    refine ⟨_, [], rfl,
      ⟨fun hd => absurd rfl hd, fun _ => rfl, hnodes, hholds, by simp, ?_, hahead, ?_⟩, ?_⟩
    · rintro fd' file' rest' heq
      cases heq
    · simpa [hc, Control.due] using hbalance
    · simp [hc, Control.size, Control.due]
  · simp only [hsome]
    refine ⟨_, q, rfl, ⟨fun _ => hlinked', ?_, hnodes, hholds, ?_, ?_, hahead, ?_⟩, ?_⟩
    · intro heq
      cases heq
    · intro x hx
      exact h.named x (List.mem_cons_of_mem _ hx)
    · rintro fd' file' rest' heq
      cases heq
    · simpa [hc, Control.due] using hbalance
    · simp [hc, Control.size, Control.due]

/-- The node at the head is allocated. -/
theorem valid_head (h : Valid base root s q) (hc : s.control = .head) :
    ∃ n, s.heap.block s.dlk = some n ∧ s.table.file n.fd = some n.file := by
  have hlinked := h.linked (by simp [hc])
  obtain ⟨x, q, rfl, hx⟩ := hlinked.head
  obtain ⟨n, hn, hfd, hfile⟩ := hlinked.node x List.mem_cons_self
  refine ⟨n, hx ▸ hn, ?_⟩
  rw [hfd, hfile]
  exact h.holds.refers x.held List.mem_cons_self

theorem valid_uses {fd : ℕ} {file : OpenFile Dir} (h : Valid base root s q)
    (huses : s.uses = some (fd, file)) : s.table.file fd = some file := by
  unfold State.uses at huses
  split at huses
  · rename_i hc
    obtain ⟨n, hn, hfile⟩ := valid_head h hc
    simp only [hn, Option.map_some, Option.some.injEq, Prod.mk.injEq] at huses
    obtain ⟨rfl, rfl⟩ := huses
    exact hfile
  · rename_i hc
    cases huses
    obtain ⟨⟨p, q, rfl⟩, -⟩ := h.reading fd file _ hc
    exact h.holds.refers (fd, file) List.mem_cons_self
  · cases huses

/-- No step of a valid state uses a stale descriptor or a dangling node; it leads to a valid state
and to the end, or the walk gives up. -/
theorem valid_step {r : Except Fault State} (hs : Step s a r) (hmalloc : a.MallocOk)
    (h : Valid base root s q) :
    ∃ t, r = .ok t ∧ ((∃ q', Valid base root t q' ∧ t.control.size q' < s.control.size q) ∨
      Abandoned root t) := by
  cases hs with
  | dangling hc hnode =>
    obtain ⟨n, hn, -⟩ := valid_head h hc
    cases hnode.symm.trans hn
  | stale huses hstale => exact absurd (valid_uses h huses) hstale
  | fdopendirError hc hnode hfile hreads =>
    exact ⟨_, rfl, .inr (valid_fdopendirError h hc hnode hreads)⟩
  | fdopendir hc hnode hfile hreads listing hlisting =>
    exact ⟨_, rfl, .inl ⟨q, valid_fdopendir h hc hnode hreads hlisting⟩⟩
  | readdir hc hfile malloc =>
    obtain rfl : malloc = true := hmalloc
    obtain ⟨t, q', ht, hvalid⟩ := valid_readdir h hc
    exact ⟨t, ht, .inl ⟨q', hvalid⟩⟩
  | closedir hc hfile =>
    obtain ⟨t, q', ht, hvalid⟩ := valid_closedir h hc
    exact ⟨t, ht, .inl ⟨q', hvalid⟩⟩

theorem valid_start (hnamed : root.WellNamed) :
    Valid base root (.start base root) [⟨0, base.lowest, base.fresh root⟩] := by
  refine ⟨fun _ => ⟨⟨rfl, rfl⟩, ⟨[], _, rfl, rfl⟩, ?_⟩, ?_, ?_, ?_, ?_, ?_, ?_, ?_⟩
  · intro x hx
    obtain rfl := List.mem_singleton.mp hx
    exact ⟨_, Heap.block_alloc_next, rfl, rfl⟩
  · intro he
    cases he
  · intro p hp
    rw [← Heap.mem_live, State.start, Heap.live_alloc, Heap.live_empty] at hp
    exact hp
  · exact FdTable.Holds.nil.openFile root
  · intro x hx
    obtain rfl := List.mem_singleton.mp hx
    exact hnamed
  · rintro fd file rest he
    cases he
  · simp [State.start, Control.ahead, FdTable.fresh]
  · simp [State.start, Control.due, FdTable.fresh, total_eq_due]

/-- As long as there is a list the walk can go on. -/
theorem done_of_stuck (h : Valid base root s q)
    (hstuck : ∀ a t, a.MallocOk → ¬ (walk base root).Step s a t) : s.control = .done := by
  cases hc : s.control with
  | head =>
    obtain ⟨n, hn, hfile⟩ := valid_head h hc
    cases hreads : n.file.contents.reads with
    | false => exact absurd (Step.fdopendirError hc hn hfile hreads) (hstuck _ _ trivial)
    | true => exact absurd (Step.fdopendir hc hn hfile hreads _ (.refl _)) (hstuck _ _ trivial)
  | loop fd file rest =>
    have hfile : s.table.file fd = some file := valid_uses h (by simp [State.uses, hc])
    cases rest with
    | nil =>
      obtain ⟨t, q', ht, -⟩ := valid_closedir h hc
      have hstep := Step.closedir hc hfile
      rw [ht] at hstep
      exact absurd hstep (hstuck _ _ trivial)
    | cons e rest =>
      obtain ⟨t, q', ht, -⟩ := valid_readdir h hc
      have hstep := Step.readdir hc hfile true
      rw [ht] at hstep
      exact absurd hstep (hstuck _ _ rfl)
  | done => rfl

/-- Everything is counted, and the walk holds nothing any more. -/
def Complete (base : FdTable Dir) (root : Dir) (s : State) : Prop :=
  s.counts = root.total ∧ s.table.file = base.file ∧ s.heap.live = ∅

theorem complete_of_valid (h : Valid base root s q) (hdone : s.control = .done) :
    Complete base root s ∧ root.AllRead := by
  obtain rfl := h.ended hdone
  have hbalance := h.balance
  refine ⟨⟨?_, ?_, ?_⟩, ?_⟩
  · simpa [hdone, Control.due] using hbalance
  · funext n
    exact h.holds.others n List.not_mem_nil
  · refine Finset.eq_empty_of_forall_notMem fun p hp => ?_
    cases h.nodes p (Heap.mem_live.mp hp)
  · intro d hd
    cases hreads : d.reads with
    | true => rfl
    | false =>
      have hmem := (h.ahead d hreads).mpr hd
      rw [hdone] at hmem
      cases hmem

/-- A walk is in order, or it has given up. -/
theorem valid_or_abandoned (hnamed : root.WellNamed)
    (hs : ((walk base root).restrict fun _ a => a.MallocOk).Reachable s) :
    (∃ q, Valid base root s q) ∨ Abandoned root s := by
  apply System.reachable_invariant ?_ ?_ hs
  · rintro s rfl
    exact .inl ⟨_, valid_start hnamed⟩
  · rintro s a t ⟨hmalloc, hs⟩ (⟨q, h⟩ | h)
    · obtain ⟨t', ht, hvalid | habandoned⟩ := valid_step hs hmalloc h
      · obtain ⟨q', hvalid, -⟩ := hvalid
        cases ht
        exact .inl ⟨q', hvalid⟩
      · cases ht
        exact .inr habandoned
    · exact absurd hs (no_step_of_done h.done)

/-- Every run for whose nodes there is memory ends; it is complete if and only if every directory
that it comes to can be read. -/
theorem walk_outcome (hnamed : root.WellNamed) :
    ((walk base root).restrict fun _ a => a.MallocOk).Ends (.start base root)
      fun s => s.control = .done ∧ (Complete base root s ↔ root.AllRead) := by
  apply System.ends_of_rank
    (I := fun s n => (∃ q, Valid base root s q ∧ s.control.size q + 1 = n) ∨
      Abandoned root s ∧ n = 0) ?_ ?_ (.inl ⟨_, valid_start hnamed, rfl⟩)
  · rintro s a t n ⟨hmalloc, hs⟩ (⟨q, h, rfl⟩ | ⟨h, rfl⟩)
    · obtain ⟨t', ht, ⟨q', hvalid, hlt⟩ | habandoned⟩ := valid_step hs hmalloc h
      · cases ht
        exact ⟨_, Nat.succ_lt_succ hlt, .inl ⟨q', hvalid, rfl⟩⟩
      · cases ht
        exact ⟨0, Nat.succ_pos _, .inr ⟨habandoned, rfl⟩⟩
    · exact absurd hs (no_step_of_done h.done)
  · rintro s n (⟨q, h, -⟩ | ⟨h, -⟩) hstuck
    · have hdone := done_of_stuck h fun a t hmalloc hs => hstuck a t ⟨hmalloc, hs⟩
      obtain ⟨hcomplete, hread⟩ := complete_of_valid h hdone
      exact ⟨hdone, fun _ => hread, fun _ => hcomplete⟩
    · exact ⟨h.done, fun hc => absurd hc.2.2 h.nodes.ne_empty, fun hread => absurd hread h.unread⟩

/-- Where every directory can be read the counters end as the totals. -/
theorem walk_ends (hnamed : root.WellNamed) (hread : root.AllRead) :
    ((walk base root).restrict fun _ a => a.MallocOk).Ends (.start base root)
      fun s => s.control = .done ∧ s.counts = root.total := by
  apply (walk_outcome hnamed).imp
  rintro s ⟨hdone, hcomplete⟩
  exact ⟨hdone, (hcomplete.mpr hread).1⟩

end UnixCodes.DirCount.Duclinkfd
