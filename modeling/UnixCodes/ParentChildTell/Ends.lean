import UnixCodes.ParentChildTell.Order

/-! Both processes of `parent_child_tell.c` come to their end, and where nothing fails the one that
waits gets the pid. -/
namespace UnixCodes.ParentChildTell

open Posix Transition

variable {w : Writer} {r : Reader} {s t : Tell} {a : Action} {xs : List Action} {mode : Mode}
  {pid v : ℤ}

def Action.Fault : Action → Prop
  | .writeError _ | .readError _ _ => True
  | _ => False

def WriterPc.Ended (p : WriterPc) : Prop := p = .done ∨ p = .killed

/-- The steps that are left. -/
def WriterPc.left : WriterPc → ℕ
  | .closeRead => 4
  | .write => 3
  | .printf => 2
  | .closeWrite => 1
  | .done | .killed => 0

def ReaderPc.left : ReaderPc → ℕ
  | .closeWrite => 4
  | .read => 3
  | .compare _ => 2
  | .closeRead => 1
  | .done => 0

def Tell.left (s : Tell) : ℕ := s.writer.left + s.reader.left

theorem left_step (hs : Tell.Step w r s a t) : t.left < s.left := by
  unfold Tell.left
  cases hs with
  | writerCloseRead hw | write hw _ | sigpipe hw _ | writeError hw _ | printFirst hw
  | writerCloseWrite hw =>
    simp [hw, Tell.print, WriterPc.left]
  | readerCloseWrite hr | read hr _ _ _ | readEof hr _ _ _ | readError hr _ _ | printSecond hr
  | readerCloseRead hr =>
    simp [hr, Tell.print, ReaderPc.left]

/-- The ends of the pipe that the two still have. -/
structure Ends (w : Writer) (r : Reader) (s : Tell) : Prop where
  writer : s.writer.Ended ↔ w.proc ∉ s.writeEnds
  reader : s.reader ≠ .closeWrite → r.proc ∉ s.writeEnds
  readEnd : s.reader ≠ .done → r.proc ∈ s.readEnds

theorem ends_step (hne : w.proc ≠ r.proc) (hs : Tell.Step w r s a t) (h : Ends w r s) :
    Ends w r t := by
  obtain ⟨hwriter, hreader, hread⟩ := h
  cases hs with
  | writerCloseRead hw =>
    refine ⟨iff_of_false (by simp [WriterPc.Ended]) ?_, hreader, fun hr => ?_⟩
    · exact hwriter.not.mp (by simp [hw, WriterPc.Ended])
    · exact Finset.mem_erase.mpr ⟨hne.symm, hread hr⟩
  | write hw _ | writeError hw _ | printFirst hw =>
    refine ⟨iff_of_false (by simp [WriterPc.Ended]) ?_, hreader, hread⟩
    exact hwriter.not.mp (by simp [hw, WriterPc.Ended])
  | sigpipe hw hends | writerCloseWrite hw =>
    exact ⟨iff_of_true (by simp [WriterPc.Ended]) (Finset.notMem_erase w.proc s.writeEnds),
      fun hr hmem => hreader hr (Finset.mem_of_mem_erase hmem), hread⟩
  | readerCloseWrite hr =>
    refine ⟨hwriter.trans (not_congr ?_), fun _ => Finset.notMem_erase r.proc s.writeEnds,
      fun _ => hread (by simp [hr])⟩
    rw [Finset.mem_erase, and_iff_right hne]
  | read hr _ _ _ | readEof hr _ _ _ | readError hr _ _ | printSecond hr =>
    exact ⟨hwriter, fun _ => hreader (by simp [hr]), fun _ => hread (by simp [hr])⟩
  | readerCloseRead hr =>
    exact ⟨hwriter, fun _ => hreader (by simp [hr]), fun hd => absurd rfl hd⟩

theorem ends_start : Ends w r .start := by
  refine ⟨iff_of_false (by simp [Tell.start, WriterPc.Ended]) ?_, fun hr => absurd rfl hr,
    fun _ => ?_⟩
  · cases w.proc <;> decide
  · cases r.proc <;> decide

/-- Nothing holds the writer up. -/
theorem writer_goes_on (hw : ¬ s.writer.Ended) : ∃ a t, ¬ a.Fault ∧ Tell.Step w r s a t := by
  cases hp : s.writer with
  | closeRead => exact ⟨.writer, _, id, .writerCloseRead hp⟩
  | write =>
    by_cases hends : s.readEnds = ∅
    · exact ⟨.writer, _, id, .sigpipe hp hends⟩
    · exact ⟨.writer, _, id, .write hp hends⟩
  | printf => exact ⟨.writer, _, id, .printFirst hp⟩
  | closeWrite => exact ⟨.writer, _, id, .writerCloseWrite hp⟩
  | done => exact absurd (.inl hp) hw
  | killed => exact absurd (.inr hp) hw

/-- When the writer is gone the reader gets what there is, or the end of the file. -/
theorem reader_goes_on (hne : ∀ p, p = w.proc ∨ p = r.proc) (h : Ends w r s)
    (hw : s.writer.Ended) (hr : s.reader ≠ .done) : ∃ a t, ¬ a.Fault ∧ Tell.Step w r s a t := by
  cases hp : s.reader with
  | closeWrite => exact ⟨.reader, _, id, .readerCloseWrite hp⟩
  | read =>
    cases hpipe : s.pipe with
    | cons v vs => exact ⟨.reader, _, id, .read hp v vs hpipe⟩
    | nil =>
      have hends : s.writeEnds = ∅ := by
        rw [Finset.eq_empty_iff_forall_notMem]
        intro p hmem
        rcases hne p with rfl | rfl
        · exact h.writer.mp hw hmem
        · exact h.reader (by simp [hp]) hmem
      exact ⟨.readEof 0, _, id, .readEof hp hpipe hends 0⟩
  | compare v => exact ⟨.reader, _, id, .printSecond hp⟩
  | closeRead => exact ⟨.reader, _, id, .readerCloseRead hp⟩
  | done => exact absurd hp hr

theorem roles_cover (p : Proc) :
    p = (roles mode pid).1.proc ∨ p = (roles mode pid).2.proc := by
  cases mode <;> cases p <;> simp [roles, parentFirst, childWait, childFirst, parentWait]

/-- Whatever fails, neither of the processes waits for ever, under any schedule that does not hold
back the steps which are no failures. -/
theorem tell_ends (mode : Mode) (pid : ℤ) {ok : Tell → Action → Prop}
    (hok : ∀ s a, ¬ a.Fault → ok s a) :
    ((tell mode pid).restrict ok).Ends .start fun s => s.writer.Ended ∧ s.reader = .done := by
  apply System.ends_of_rank (I := fun s n => Ends (roles mode pid).1 (roles mode pid).2 s ∧
    s.left = n) (n := Tell.start.left)
  · rintro s a t n ⟨-, hs⟩ ⟨h, rfl⟩
    exact ⟨t.left, left_step hs, ends_step roles_proc hs h, rfl⟩
  · rintro s n ⟨h, -⟩ hstuck
    by_cases hw : s.writer.Ended
    · refine ⟨hw, ?_⟩
      by_contra hr
      obtain ⟨a, t, hf, hs⟩ := reader_goes_on roles_cover h hw hr
      exact hstuck a t ⟨hok s a hf, hs⟩
    · obtain ⟨a, t, hf, hs⟩ := writer_goes_on hw
      exact absurd ⟨hok s a hf, hs⟩ (hstuck a t)
  · exact ⟨ends_start, rfl⟩

theorem tell_ends_faultless :
    ((tell .pf 7).restrict fun _ a => ¬ a.Fault).Ends .start fun s =>
      s.writer.Ended ∧ s.reader = .done :=
  tell_ends .pf 7 fun _ _ hf => hf

/-- What the writer has sent by then. -/
def WriterPc.sent (v : ℤ) : WriterPc → List ℤ
  | .printf | .closeWrite | .done => [v]
  | _ => []

/-- What the reader has got, which is what it has compared before. -/
def ReaderPc.got (v : ℤ) : ReaderPc → List ℤ
  | .compare v' => [v']
  | .closeRead | .done => [v]
  | _ => []

def WriterPc.lines (w : Writer) : WriterPc → List Line
  | .closeWrite | .done => [.execFirst w.proc w.value]
  | _ => []

def ReaderPc.lines (r : Reader) : ReaderPc → List Line
  | .closeRead | .done => [.execSecond r.proc r.expected]
  | _ => []

/-- As long as nothing fails the pid is on its way, and each has printed its line. -/
structure Clean (w : Writer) (r : Reader) (s : Tell) : Prop where
  alive : s.writer ≠ .killed
  sent : s.pipe ++ s.reader.got w.value = s.writer.sent w.value
  printed : s.printed.Perm (s.writer.lines w ++ s.reader.lines r)

/-- Nothing but the pid is ever sent, and it is sent once. -/
theorem eq_of_sent {p : WriterPc} {vs ws : List ℤ} (h : vs ++ v :: ws = p.sent w.value) :
    v = w.value ∧ vs = [] ∧ ws = [] := by
  have hlen := congrArg List.length h
  have hmem : v ∈ p.sent w.value := h ▸ List.mem_append_right vs List.mem_cons_self
  cases p with
  | closeRead | write | killed => cases hmem
  | printf | closeWrite | done =>
    simp only [List.length_append, List.length_cons, WriterPc.sent, List.length_nil] at hlen
    exact ⟨List.mem_singleton.mp hmem, List.length_eq_zero_iff.mp (by omega),
      List.length_eq_zero_iff.mp (by omega)⟩

theorem clean_step (hvalue : r.expected = w.value) (hs : Tell.Step w r s a t) (hf : ¬ a.Fault)
    (hends : Ends w r s) (h : Clean w r s) : Clean w r t := by
  obtain ⟨halive, hsent, hprinted⟩ := h
  cases hs with
  | writeError | readError => exact absurd trivial hf
  | writerCloseRead hw | writerCloseWrite hw =>
    rw [hw] at hsent hprinted
    exact ⟨by simp, hsent, hprinted⟩
  | write hw hread =>
    rw [hw] at hsent hprinted
    obtain ⟨hpipe, hgot⟩ := List.append_eq_nil_iff.mp hsent
    refine ⟨by simp, ?_, hprinted⟩
    dsimp only
    rw [hpipe, hgot]
    rfl
  | sigpipe hw hread =>
    have hdone : s.reader = .done := by
      by_contra hr
      exact Finset.ne_empty_of_mem (hends.readEnd hr) hread
    rw [hw, hdone] at hsent
    exact absurd hsent (by simp [ReaderPc.got, WriterPc.sent])
  | printFirst hw =>
    rw [hw] at hsent hprinted
    refine ⟨by simp, hsent, ?_⟩
    exact (hprinted.append_right _).trans List.perm_append_comm
  | readerCloseWrite hr | readerCloseRead hr =>
    rw [hr] at hsent hprinted
    exact ⟨halive, hsent, hprinted⟩
  | read hr v vs hpipe =>
    rw [hr, hpipe] at hsent
    rw [hr] at hprinted
    have hsent' : [] ++ v :: vs = s.writer.sent w.value := (List.append_nil _).symm.trans hsent
    obtain ⟨-, -, rfl⟩ := eq_of_sent hsent'
    exact ⟨halive, hsent', hprinted⟩
  | readEof hr hpipe hwrite junk =>
    have hended : s.writer.Ended := hends.writer.mpr (hwrite ▸ Finset.notMem_empty _)
    rw [hr, hpipe, hended.resolve_right halive] at hsent
    exact absurd hsent (by simp [ReaderPc.got, WriterPc.sent])
  | @printSecond newPid hr =>
    rw [hr] at hsent hprinted
    obtain ⟨rfl, -, -⟩ := eq_of_sent hsent
    refine ⟨halive, hsent, ?_⟩
    dsimp only [Tell.print]
    rw [if_pos hvalue, ← hvalue]
    exact List.Perm.append_right _ (hprinted.trans (.of_eq (List.append_nil _)))

theorem clean_start : Clean w r .start := ⟨by simp [Tell.start], rfl, .refl _⟩

theorem roles_value : (roles mode pid).1.value = pid := by
  cases mode <;> rfl

theorem clean_run (hr : (tell mode pid).Run s xs t) (hf : ∀ a ∈ xs, ¬ a.Fault)
    (hends : Ends (roles mode pid).1 (roles mode pid).2 s)
    (h : Clean (roles mode pid).1 (roles mode pid).2 s) :
    Clean (roles mode pid).1 (roles mode pid).2 t := by
  have hvalue : (roles mode pid).2.expected = (roles mode pid).1.value :=
    roles_expected.trans roles_value.symm
  induction hr with
  | refl => exact h
  | stepL hs _ ih =>
    obtain ⟨ha, hxs⟩ := List.forall_mem_cons.mp hf
    exact ih hxs (ends_step roles_proc hs hends) (clean_step hvalue hs ha hends h)

/-- Where nothing fails and both have come to their end, each has printed its line, and the pid that
the second has got is the one that it has expected. -/
theorem both_told (hr : (tell mode pid).Run .start xs s) (hf : ∀ a ∈ xs, ¬ a.Fault)
    (hwriter : s.writer.Ended) (hreader : s.reader = .done) :
    s.printed.Perm [.execFirst (roles mode pid).1.proc pid,
      .execSecond (roles mode pid).2.proc pid] := by
  obtain ⟨halive, -, hprinted⟩ := clean_run hr hf ends_start clean_start
  rw [hwriter.resolve_right halive, hreader] at hprinted
  dsimp only [WriterPc.lines, ReaderPc.lines] at hprinted
  rwa [roles_value, roles_expected] at hprinted

/-- The child prints first. -/
theorem both_told_race : ∃ xs s, (tell .pf 7).Run .start xs s ∧
    s.printed = [.execSecond .child 7, .execFirst .parent 7] ∧
      s.printed.Perm [.execFirst .parent 7, .execSecond .child 7] := by
  have hr : ∃ xs s, (tell .pf 7).Run .start xs s ∧ (∀ a ∈ xs, ¬ a.Fault) ∧
      s.writer = .done ∧ s.reader = .done ∧
      s.printed = [.execSecond .child 7, .execFirst .parent 7] := by
    refine ⟨_, _, .stepL (.writerCloseRead rfl) <| .stepL (.write rfl (by decide)) <|
      .stepL (.readerCloseWrite rfl) <| .stepL (.read rfl 7 [] rfl) <|
      .stepL (.printSecond rfl) <| .stepL (.readerCloseRead rfl) <|
      .stepL (.printFirst rfl) <| .stepL (.writerCloseWrite rfl) .refl, ?_, rfl, rfl, rfl⟩
    simp [Action.Fault]
  obtain ⟨xs, s, hrun, hf, hwriter, hreader, hprinted⟩ := hr
  exact ⟨xs, s, hrun, hprinted, both_told hrun hf (.inl hwriter) hreader⟩

end UnixCodes.ParentChildTell
