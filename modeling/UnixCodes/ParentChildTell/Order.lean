import UnixCodes.Lib.Precedence
import UnixCodes.ParentChildTell.Model

/-! The order of the lines that the processes of `parent_child_tell.c` print. -/
namespace UnixCodes.ParentChildTell

open Posix Transition

variable {w : Writer} {r : Reader} {s t : Tell} {a : Action} {mode : Mode} {pid : ℤ}

/-- The line of the reader that it comes second stands behind that of the writer that it comes
first. -/
def Ordered (w : Writer) (r : Reader) (printed : List Line) : Prop :=
  Precedes (∃ v, · = .execFirst w.proc v) (∃ v, · = .execSecond r.proc v) printed

/-- The reader does not print what it has got while the writer stands between its `write` and its
`printf`, and a `read` that fails before that `printf` does not leave the pid in `newPid` by
accident. -/
def InTurn (pid : ℤ) (s : Tell) : Action → Prop
  | .reader => s.reader = .compare pid → s.writer ≠ .printf
  | .readError _ junk => junk = pid → s.writer = .closeWrite ∨ s.writer = .done
  | _ => True

/-- What the reader knows about the writer once it has the pid. -/
structure Told (w : Writer) (r : Reader) (pid : ℤ) (s : Tell) : Prop where
  ordered : Ordered w r s.printed
  pipe : s.pipe ≠ [] → s.writer ≠ .closeRead ∧ s.writer ≠ .write
  compare : s.reader = .compare pid → s.writer ≠ .closeRead ∧ s.writer ≠ .write
  first : s.writer = .closeWrite ∨ s.writer = .done → ∃ v, .execFirst w.proc v ∈ s.printed
  readEnd : s.reader ≠ .done → r.proc ∈ s.readEnds
  writeEnd : s.writer ≠ .done → s.writer ≠ .killed → w.proc ∈ s.writeEnds
  killed : s.writer = .killed → s.reader = .done

theorem Told.alive (h : Told w r pid s) (hr : s.reader ≠ .done) : s.writer ≠ .killed :=
  fun hk => hr (h.killed hk)

theorem told_writer (hne : w.proc ≠ r.proc) (hs : Tell.Step w r s .writer t)
    (h : Told w r pid s) : Told w r pid t := by
  obtain ⟨hordered, hpipe, hcompare, hfirst, hread, hwrite, hkilled⟩ := h
  cases hs with
  | writerCloseRead hw =>
    refine ⟨hordered, ?_, ?_, by simp, ?_, fun _ _ => ?_, by simp⟩
    · intro hp
      exact absurd hw (hpipe hp).1
    · intro hr
      exact absurd hw (hcompare hr).1
    · intro hr
      exact Finset.mem_erase.mpr ⟨hne.symm, hread hr⟩
    · exact hwrite (by simp [hw]) (by simp [hw])
  | write hw hends =>
    exact ⟨hordered, by simp, by simp, by simp, hread,
      fun _ _ => hwrite (by simp [hw]) (by simp [hw]), by simp⟩
  | sigpipe hw hends =>
    have hdone : s.reader = .done := by
      by_contra hr
      have hmem := hread hr
      rw [hends] at hmem
      exact Finset.notMem_empty _ hmem
    exact ⟨hordered, by simp, by simp, by simp, hread, by simp, fun _ => hdone⟩
  | printFirst hw =>
    exact ⟨hordered.concat_of_not (by simp), by simp, by simp,
      fun _ => ⟨w.value, List.mem_append_right _ (List.mem_singleton_self _)⟩, hread,
      fun _ _ => hwrite (by simp [hw]) (by simp [hw]), by simp⟩
  | writerCloseWrite hw =>
    exact ⟨hordered, by simp, by simp, fun _ => hfirst (.inl hw), hread, by simp, by simp⟩

/-- The reader gets contents for `newPid` that are the pid only if the writer has written. -/
theorem told_compare {v : ℤ} (h : Told w r pid s) (hr : s.reader = .read)
    (hreader : t.reader = .compare v) (hwriter : t.writer = s.writer)
    (hends : t.readEnds = s.readEnds) (hends' : t.writeEnds = s.writeEnds)
    (hordered : Ordered w r t.printed) (hprinted : ∀ l ∈ s.printed, l ∈ t.printed)
    (hpipe : t.pipe ≠ [] → s.pipe ≠ [])
    (hv : v = pid → s.writer ≠ .closeRead ∧ s.writer ≠ .write) : Told w r pid t := by
  have halive : s.writer ≠ .killed := h.alive (by simp [hr])
  refine ⟨hordered, ?_, ?_, ?_, ?_, ?_, ?_⟩
  · intro hp
    rw [hwriter]
    exact h.pipe (hpipe hp)
  · intro hcompare
    rw [hreader] at hcompare
    rw [hwriter]
    exact hv (ReaderPc.compare.inj hcompare)
  · intro hpast
    rw [hwriter] at hpast
    obtain ⟨v', hv'⟩ := h.first hpast
    exact ⟨v', hprinted _ hv'⟩
  · intro _
    rw [hends]
    exact h.readEnd (by simp [hr])
  · rw [hwriter, hends']
    exact h.writeEnd
  · intro hk
    exact absurd (hwriter ▸ hk) halive

/-- A step that leaves the writer alone, and after which the reader has nothing to compare. -/
theorem told_reader (h : Told w r pid s) (hwriter : t.writer = s.writer) (hpipe : t.pipe = s.pipe)
    (hreader : t.reader ≠ .compare pid) (hordered : Ordered w r t.printed)
    (hprinted : ∀ l ∈ s.printed, l ∈ t.printed) (hs : s.reader ≠ .done)
    (hread : t.reader ≠ .done → t.readEnds = s.readEnds)
    (hwrite : w.proc ∈ s.writeEnds → w.proc ∈ t.writeEnds) : Told w r pid t := by
  refine ⟨hordered, ?_, fun hcompare => absurd hcompare hreader, ?_, ?_, ?_, ?_⟩
  · rw [hpipe, hwriter]
    exact h.pipe
  · intro hpast
    rw [hwriter] at hpast
    obtain ⟨v', hv'⟩ := h.first hpast
    exact ⟨v', hprinted _ hv'⟩
  · intro hdone
    rw [hread hdone]
    exact h.readEnd hs
  · intro hdone hk
    rw [hwriter] at hdone hk
    exact hwrite (h.writeEnd hdone hk)
  · intro hk
    exact absurd (hwriter ▸ hk) (h.alive hs)

theorem told_step (hne : w.proc ≠ r.proc) (he : r.expected = pid)
    (hs : Tell.Step w r s a t) (hok : InTurn pid s a) (h : Told w r pid s) : Told w r pid t := by
  have hmono (l : Line) : ∀ l' ∈ s.printed, l' ∈ s.printed ++ [l] :=
    fun l' hl => List.mem_append_left _ hl
  by_cases hwriter : a = .writer
  · subst hwriter
    exact told_writer hne hs h
  cases hs with
  | writerCloseRead | write | sigpipe | printFirst | writerCloseWrite => exact absurd rfl hwriter
  | writeError hw e =>
    obtain ⟨hordered, -, -, -, hread, hwrite, -⟩ := h
    exact ⟨hordered.concat_of_not (by simp), by simp, by simp, by simp, hread,
      fun _ _ => hwrite (by simp [hw]) (by simp [hw]), by simp⟩
  | readerCloseWrite hr =>
    refine told_reader h rfl rfl (by simp) h.ordered (fun l hl => hl) (by simp [hr])
      (fun _ => rfl) ?_
    exact fun hmem => Finset.mem_erase.mpr ⟨hne, hmem⟩
  | read hr v vs hv =>
    have hwritten := h.pipe (by simp [hv])
    exact told_compare h hr rfl rfl rfl rfl h.ordered (fun l hl => hl) (fun _ => by simp [hv])
      (fun _ => hwritten)
  | readEof hr hp hends junk =>
    -- The writer has closed its end, so it has also printed.
    have hdone : s.writer = .done := by
      by_contra hdone
      have hmem := h.writeEnd hdone (h.alive (by simp [hr]))
      rw [hends] at hmem
      exact Finset.notMem_empty _ hmem
    exact told_compare h hr rfl rfl rfl rfl (h.ordered.concat_of_not (by simp)) (hmono _)
      (fun hp' => hp') (fun _ => by simp [hdone])
  | readError hr e junk =>
    refine told_compare h hr rfl rfl rfl rfl (h.ordered.concat_of_not (by simp)) (hmono _)
      (fun hp' => hp') fun hjunk => ?_
    rcases hok hjunk with hw | hw <;> simp [hw]
  | @printSecond newPid hr =>
    refine told_reader h rfl rfl (by simp) ?_ (hmono _) (by simp [hr]) (fun _ => rfl)
      (fun hmem => hmem)
    by_cases hpid : r.expected = newPid
    · refine h.ordered.concat fun _ => ?_
      have hr' : s.reader = .compare pid := by rw [hr, ← hpid, he]
      obtain ⟨hclose, hwrite⟩ := h.compare hr'
      have hprinted := hok hr'
      have halive := h.alive (by simp [hr])
      have hpast : s.writer = .closeWrite ∨ s.writer = .done := by
        cases hw : s.writer <;> simp_all
      obtain ⟨v, hv⟩ := h.first hpast
      exact ⟨_, hv, v, rfl⟩
    · simp only [hpid, if_false]
      exact h.ordered.concat_of_not (by simp)
  | readerCloseRead hr =>
    exact told_reader h rfl rfl (by simp) h.ordered (fun l hl => hl) (by simp [hr])
      (fun hdone => absurd rfl hdone) (fun hmem => hmem)

theorem told_start : Told w r pid .start := by
  refine ⟨Precedes.nil, by simp [Tell.start], by simp [Tell.start], by simp [Tell.start], ?_, ?_,
    by simp [Tell.start]⟩
  · intro _
    cases r.proc <;> decide
  · intro _ _
    cases w.proc <;> decide

theorem roles_proc : (roles mode pid).1.proc ≠ (roles mode pid).2.proc := by
  cases mode <;> simp [roles, parentFirst, childWait, childFirst, parentWait]

theorem roles_expected : (roles mode pid).2.expected = pid := by
  cases mode <;> rfl

/-- A writer that has not come past its `printf` has not printed that it is first. -/
def Silent (w : Writer) (s : Tell) : Prop :=
  ¬ (s.writer = .closeWrite ∨ s.writer = .done) → ∀ v, .execFirst w.proc v ∉ s.printed

theorem silent_step (hs : Tell.Step w r s a t) (h : Silent w s) : Silent w t := by
  unfold Silent at *
  cases hs with
  | writerCloseRead hw => exact fun _ => h (by simp [hw])
  | write hw hends => exact fun _ => h (by simp [hw])
  | sigpipe hw hends => exact fun _ => h (by simp [hw])
  | writeError hw e =>
    intro _ v
    simp [Tell.print, h (by simp [hw]) v]
  | printSecond hr =>
    intro hw v
    have hnot := h hw v
    dsimp only [Tell.print]
    split <;> simp [hnot]
  | readEof hr hp hends junk =>
    intro hw v
    simp [Tell.print, h hw v]
  | readError hr e junk =>
    intro hw v
    simp [Tell.print, h hw v]
  | printFirst | writerCloseWrite => simp
  | readerCloseWrite | read | readerCloseRead => exact h

theorem silent_reachable (h : (tell mode pid).Reachable s) : Silent (roles mode pid).1 s := by
  apply System.reachable_invariant ?_ ?_ h
  · rintro s rfl
    simp [Silent, Tell.start]
  · intro s a t hs hsilent
    exact silent_step hs hsilent

/-- A reader that prints before the writer has done so does not come second. -/
theorem not_ordered_of_silent (h : Silent (roles mode pid).1 s)
    (hwriter : ¬ (s.writer = .closeWrite ∨ s.writer = .done)) (hreader : s.reader = .compare pid)
    (hs : (tell mode pid).Step s .reader t) :
    ¬ Ordered (roles mode pid).1 (roles mode pid).2 t.printed := by
  have hprinted : t.printed = s.printed ++ [.execSecond (roles mode pid).2.proc pid] := by
    cases hs with
    | printSecond hr =>
      rw [hreader] at hr
      cases hr
      simp [Tell.print, roles_expected]
    | _ => simp_all
  intro hordered
  obtain ⟨l, hl, v, rfl⟩ := hordered _ _ _ hprinted ⟨pid, rfl⟩
  exact h hwriter v hl

/-- The lines come in the order that the mode asks for if the reader does not print while the
writer has written and not yet printed; when it does so, they do not, and when a `read` that fails
leaves it the pid before that, the next step can bring them out of order. -/
theorem ordered_iff_inTurn (mode : Mode) (pid : ℤ) :
    (∀ s, ((tell mode pid).restrict (InTurn pid)).Reachable s →
      Ordered (roles mode pid).1 (roles mode pid).2 s.printed) ∧
    (∀ s t, (tell mode pid).Reachable s → (tell mode pid).Step s .reader t →
      ¬ InTurn pid s .reader → ¬ Ordered (roles mode pid).1 (roles mode pid).2 t.printed) ∧
    ∀ s t e junk, (tell mode pid).Reachable s → (tell mode pid).Step s (.readError e junk) t →
      ¬ InTurn pid s (.readError e junk) →
      ∃ u, (tell mode pid).Step t .reader u ∧
        ¬ Ordered (roles mode pid).1 (roles mode pid).2 u.printed := by
  refine ⟨fun s h => ?_, fun s t h hs hnot => ?_, fun s t e junk h hs hnot => ?_⟩
  · have htold : Told (roles mode pid).1 (roles mode pid).2 pid s := by
      apply System.reachable_invariant ?_ ?_ h
      · rintro s rfl
        exact told_start
      · rintro s a t ⟨hok, hs⟩ htold
        exact told_step roles_proc roles_expected hs hok htold
    exact htold.ordered
  · obtain ⟨hcompare, hprintf⟩ := Classical.not_imp.mp hnot
    have hbefore : ¬ (s.writer = .closeWrite ∨ s.writer = .done) := by simp [not_not.mp hprintf]
    exact not_ordered_of_silent (silent_reachable h) hbefore hcompare hs
  · obtain ⟨rfl, hbefore⟩ := Classical.not_imp.mp hnot
    have hsilent := silent_reachable (h.step hs)
    cases hs with
    | readError hr =>
      have hprint := Tell.Step.printSecond (w := (roles mode junk).1) (r := (roles mode junk).2)
        (s := { s.print (.readError (roles mode junk).2.proc) with reader := .compare junk }) rfl
      exact ⟨_, hprint, not_ordered_of_silent hsilent hbefore rfl hprint⟩

theorem step_inTurn (hs : (tell mode pid).Step s a t) (hok : InTurn pid s a) :
    ((tell mode pid).restrict (InTurn pid)).Step s a t := ⟨hok, hs⟩

/-- The parent prints before the child has read. -/
theorem ordered_iff_inTurn_parentFirst :
    ∃ s : Tell, ((tell .pf 7).restrict (InTurn 7)).Reachable s ∧
      s.printed = [.execFirst .parent 7, .execSecond .child 7] ∧
      Ordered (parentFirst 7) (childWait 7) s.printed := by
  have hr : ∃ s : Tell, ((tell .pf 7).restrict (InTurn 7)).Reachable s ∧
      s.printed = [.execFirst .parent 7, .execSecond .child 7] :=
    ⟨_, ⟨_, _, rfl,
      .stepL (step_inTurn (.writerCloseRead rfl) (by simp [InTurn])) <|
      .stepL (step_inTurn (.write rfl (by decide)) (by simp [InTurn])) <|
      .stepL (step_inTurn (.printFirst rfl) (by simp [InTurn])) <|
      .stepL (step_inTurn (.readerCloseWrite rfl) (by simp [InTurn])) <|
      .stepL (step_inTurn (.read rfl 7 [] rfl) (by simp [InTurn])) <|
      .stepL (step_inTurn (.printSecond rfl) (by simp [InTurn])) .refl⟩, by decide⟩
  obtain ⟨s, hs, hprinted⟩ := hr
  exact ⟨s, hs, hprinted, (ordered_iff_inTurn .pf 7).1 s hs⟩

/-- The reader reads and prints while the writer has not printed yet. -/
theorem race_reachable (mode : Mode) (pid : ℤ) :
    ∃ s : Tell, (tell mode pid).Reachable s ∧
      s.printed = [.execSecond (roles mode pid).2.proc pid] := by
  refine ⟨_, ⟨_, _, rfl,
    .stepL (.writerCloseRead rfl) <|
    .stepL (.write rfl ?_) <|
    .stepL (.readerCloseWrite rfl) <|
    .stepL (.read rfl _ [] rfl) <|
    .stepL (.printSecond rfl) .refl⟩, ?_⟩
  · cases mode with
    | pf => exact (by decide : ({.parent, .child} : Finset Proc).erase .parent ≠ ∅)
    | cf => exact (by decide : ({.parent, .child} : Finset Proc).erase .child ≠ ∅)
  · cases mode <;> simp [Tell.print, Tell.start, roles, parentFirst, childWait, childFirst,
      parentWait]

/-- In both modes the line that should come second can be the only one. -/
theorem second_comes_first :
    (¬ ∀ s, (tell .pf 7).Reachable s → Ordered (parentFirst 7) (childWait 7) s.printed) ∧
      ¬ ∀ s, (tell .cf 7).Reachable s → Ordered (childFirst 7) (parentWait 7) s.printed := by
  constructor
  · intro hall
    obtain ⟨s, hs, hprinted⟩ := race_reachable .pf 7
    obtain ⟨l, hl, -⟩ := hall s hs [] _ [] hprinted ⟨7, rfl⟩
    cases hl
  · intro hall
    obtain ⟨s, hs, hprinted⟩ := race_reachable .cf 7
    obtain ⟨l, hl, -⟩ := hall s hs [] _ [] hprinted ⟨7, rfl⟩
    cases hl

end UnixCodes.ParentChildTell
