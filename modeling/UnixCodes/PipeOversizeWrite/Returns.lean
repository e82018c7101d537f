import UnixCodes.PipeOversizeWrite.Ends

/-! The parent of `pipe_oversize_write.c` comes to its end, and its children before it. -/
namespace UnixCodes.PipeOversizeWrite

open Posix Transition

variable {capacity : ℕ} {s s' : Processes} {c : Child} {a : Action} {xs : List Action}

/-- The steps that are left, at most. -/
def ChildPc.left : ChildPc → ℕ
  | .absent => 3 * WRITE_SIZE + 5
  | .closeRead => 3 * WRITE_SIZE + 4
  | .write n => 3 * (WRITE_SIZE - n) + 3
  | .closeWrite _ => 2
  | .exit _ => 1
  | .forkFailed | .zombie _ | .reaped _ => 0

def ParentPc.left : ParentPc → ℕ
  | .pipe => 12
  | .fork1 => 11
  | .fork2 => 10
  | .closeWrite => 9
  | .write _ => 8
  | .read => 7
  | .closeRead => 6
  | .wait n => n + 2
  | .exited _ => 0

/-- Over both children. -/
def total (f : ChildPc → ℕ) (child : Child → ChildPc) : ℕ := f (child .pid1) + f (child .pid2)

/-- A byte that is written still has to be read. -/
def Processes.left (s : Processes) : ℕ :=
  s.parent.left + total ChildPc.left s.child + 2 * s.pipe.length

theorem total_update (f : ChildPc → ℕ) (child : Child → ChildPc) (q : ChildPc) :
    total f (Function.update child c q) + f (child c) = total f child + f q := by
  cases c <;> simp only [total, Function.update_self, ne_eq, reduceCtorEq, not_false_eq_true,
    Function.update_of_ne] <;> omega

theorem total_step (f : ChildPc → ℕ) {q r : ChildPc} (hc : s.child c = q) :
    total f (Function.update s.child c r) + f q = total f s.child + f r :=
  hc ▸ total_update f s.child r

theorem total_lt {q r : ChildPc} (hc : s.child c = q) (hlt : r.left < q.left) :
    total ChildPc.left (Function.update s.child c r) < total ChildPc.left s.child := by
  have hchild := total_step ChildPc.left (r := r) hc
  omega

/-- Every step brings the processes nearer to their end. -/
theorem left_step (hs : Processes.Step capacity s a s') (h : Inv s) : s'.left < s.left := by
  unfold Processes.left
  cases hs with
  | @fork c next hp =>
    have hchild := total_step ChildPc.left (r := .closeRead)
      (h.absent c (ParentPc.before_of_forks hp).1)
    have hparent : next.left < s.parent.left := by
      rcases hq : s.parent <;> rw [hq] at hp <;> cases hp <;> decide
    simp only [ChildPc.left] at hchild
    simp only [Processes.fork, Processes.setChild]
    omega
  | @forkError c next hp =>
    have hchild := total_step ChildPc.left (r := .forkFailed)
      (h.absent c (ParentPc.before_of_forks hp).1)
    have hparent : next.left < s.parent.left := by
      rcases hq : s.parent <;> rw [hq] at hp <;> cases hp <;> decide
    simp only [ChildPc.left] at hchild
    simp only [Processes.setChild]
    omega
  | read hp n hpos hle hpipe =>
    simp only [hp, ParentPc.left, List.length_drop]
    omega
  | @wait i n c hp hc =>
    have hchild := total_step ChildPc.left (r := .reaped n) hc
    simp only [ChildPc.left] at hchild
    simp only [hp, ParentPc.left, Processes.setChild]
    omega
  | @chunk c k hc n hpos hle hroom hends =>
    have hchild := total_step ChildPc.left (r := .write (k + n)) hc
    simp only [ChildPc.left] at hchild
    simp only [Processes.setChild, List.length_append, List.length_replicate]
    omega
  | @childCloseRead c hc | @written c hc | @cut c k hc | @sigpipe c k hc hends
  | @childCloseWrite c n hc | @exit c n hc =>
    refine Nat.add_lt_add_right (Nat.add_lt_add_left (total_lt hc ?_) _) _
    simp only [ChildPc.left]
    omega
  | pipe hp | pipeError hp | closeWrite hp | readEof hp hpipe hends | readError hp e | print hp r
  | closeRead hp | waitNone hp hc | ret hp =>
    simp only [hp, ParentPc.left]
    omega

/-- A child that has the write end goes on if there is room in the pipe, or nobody who reads. -/
theorem writer_goes_on (h : Inv s) (hc : (s.child c).CanWrite)
    (hroom : s.readEnds = ∅ ∨ s.pipe.length < capacity) :
    ∃ a s', ¬ a.Fault ∧ Processes.Step capacity s a s' := by
  rcases hq : s.child c with _ | _ | _ | k | n | n | n | n <;> rw [hq] at hc
  · exact hc.elim
  · exact hc.elim
  · exact ⟨_, _, id, .childCloseRead hq⟩
  · by_cases hends : s.readEnds = ∅
    · exact ⟨_, _, id, .sigpipe hq hends⟩
    have hlt : s.pipe.length < capacity := hroom.resolve_left hends
    have hk : k ≤ WRITE_SIZE := by
      have := h.bound c
      rwa [hq] at this
    rcases Nat.lt_or_eq_of_le hk with hk | rfl
    · exact ⟨_, _, id, .chunk hq 1 Nat.one_pos hk hlt hends⟩
    · exact ⟨_, _, id, .written hq⟩
  · exact ⟨_, _, id, .childCloseWrite hq⟩
  · exact hc.elim
  · exact hc.elim
  · exact hc.elim

/-- In its loop the parent gets something, or the end of the file, or a child can write. -/
theorem read_goes_on (hcap : 0 < capacity) (h : Inv s) (hp : s.parent = .read) :
    ∃ a s', ¬ a.Fault ∧ Processes.Step capacity s a s' := by
  by_cases hpipe : s.pipe = []
  · by_cases hends : s.writeEnds = ∅
    · exact ⟨_, _, id, .readEof hp hpipe hends⟩
    obtain ⟨x, hx⟩ := Finset.nonempty_iff_ne_empty.mpr hends
    rcases x with _ | c
    · have hf := h.parentWrite.mp hx
      rw [hp] at hf
      exact hf.elim
    · refine writer_goes_on h ((h.canWrite c).mp hx) (.inr ?_)
      rw [hpipe]
      exact hcap
  · exact ⟨_, _, id, .read hp 1 Nat.one_pos (by decide) (List.length_pos_iff.mpr hpipe)⟩

/-- When the parent waits nobody reads any more, so that a child which writes is killed. -/
theorem wait_goes_on {i : ℕ} (h : Inv s) (hp : s.parent = .wait (i + 1)) :
    ∃ a s', ¬ a.Fault ∧ Processes.Step capacity s a s' := by
  by_cases hnone : ∀ c, ¬ (s.child c).Waitable
  · exact ⟨_, _, id, .waitNone hp hnone⟩
  push Not at hnone
  obtain ⟨c, hc⟩ := hnone
  by_cases hends : s.readEnds = ∅
  · rcases hq : s.child c with _ | _ | _ | k | n | n | n | n <;> rw [hq] at hc
    · exact hc.elim
    · exact hc.elim
    · exact ⟨_, _, id, .childCloseRead hq⟩
    · exact ⟨_, _, id, .sigpipe hq hends⟩
    · exact ⟨_, _, id, .childCloseWrite hq⟩
    · exact ⟨_, _, id, .exit hq⟩
    · exact ⟨_, _, id, .wait hp hq⟩
    · exact hc.elim
  · obtain ⟨x, hx⟩ := Finset.nonempty_iff_ne_empty.mpr hends
    rcases x with _ | d
    · have hr := h.parentRead.mp hx
      rw [hp] at hr
      exact (or_self_iff.mp hr).elim
    · exact ⟨_, _, id, .childCloseRead (h.canRead d hx)⟩

theorem goes_on (hcap : 0 < capacity) (h : Inv s) (hp : ∀ code, s.parent ≠ .exited code) :
    ∃ a s', ¬ a.Fault ∧ Processes.Step capacity s a s' := by
  rcases hq : s.parent with _ | _ | _ | _ | _ | buf | _ | ⟨_ | i⟩ | code
  · exact ⟨_, _, id, .pipe hq⟩
  · exact ⟨_, _, id, .fork (by rw [hq]; rfl)⟩
  · exact ⟨_, _, id, .fork (by rw [hq]; rfl)⟩
  · exact ⟨_, _, id, .closeWrite hq⟩
  · exact read_goes_on hcap h hq
  · exact ⟨_, _, id, .print hq (.count 0 (Nat.zero_le _))⟩
  · exact ⟨_, _, id, .closeRead hq⟩
  · exact ⟨_, _, id, .ret hq⟩
  · exact wait_goes_on h hq
  · exact absurd hq (hp code)

/-- The children that can be waited for. -/
def ChildPc.waitable : ChildPc → ℕ
  | .absent | .forkFailed | .reaped _ => 0
  | _ => 1

/-- The parent waits as often as it has children. -/
structure Waited (s : Processes) : Prop where
  waiting : ∀ n, s.parent = .wait n → total ChildPc.waitable s.child ≤ n
  exited : s.parent = .exited 0 → total ChildPc.waitable s.child = 0

theorem total_waitable_le (child : Child → ChildPc) : total ChildPc.waitable child ≤ 2 := by
  have hle (q : ChildPc) : q.waitable ≤ 1 := by cases q <;> simp [ChildPc.waitable]
  have h₁ := hle (child .pid1)
  have h₂ := hle (child .pid2)
  unfold total
  omega

theorem total_waitable_same {q r : ChildPc} (hc : s.child c = q)
    (hr : r.waitable = q.waitable) :
    total ChildPc.waitable (Function.update s.child c r) = total ChildPc.waitable s.child := by
  have hchild := total_step ChildPc.waitable (r := r) hc
  omega

theorem waitable_eq_zero_iff {q : ChildPc} : q.waitable = 0 ↔ ¬ q.Waitable := by
  cases q <;> simp [ChildPc.waitable, ChildPc.Waitable]

theorem waited_step (hs : Processes.Step capacity s a s') (h : Waited s) : Waited s' := by
  cases hs with
  | pipe hp | pipeError hp | closeWrite hp | read hp n hpos hle hpipe | readEof hp hpipe hends
  | readError hp e | print hp r => exact ⟨nofun, nofun⟩
  | @fork c next hp | @forkError c next hp =>
    have hnext : (∀ n, next ≠ .wait n) ∧ next ≠ .exited 0 := by
      rcases hq : s.parent <;> rw [hq] at hp <;> cases hp <;> exact ⟨nofun, nofun⟩
    exact ⟨fun n hn => absurd hn (hnext.1 n), fun he => absurd he hnext.2⟩
  | closeRead hp =>
    constructor
    · rintro n ⟨⟩
      exact total_waitable_le s.child
    · nofun
  | @wait i n c hp hc =>
    have hchild := total_step ChildPc.waitable (r := .reaped n) hc
    have hle := h.waiting (i + 1) hp
    constructor
    · rintro j ⟨⟩
      simp only [ChildPc.waitable] at hchild
      simp only [Processes.setChild]
      omega
    · nofun
  | @waitNone i hp hc =>
    have hzero (c : Child) : (s.child c).waitable = 0 := waitable_eq_zero_iff.mpr (hc c)
    constructor
    · rintro j ⟨⟩
      simp [total, hzero]
    · nofun
  | ret hp =>
    constructor
    · nofun
    · intro _
      exact Nat.le_zero.mp (h.waiting 0 hp)
  | @childCloseRead c hc | @chunk c k hc n hpos hle hroom hends | @written c hc | @cut c k hc
  | @sigpipe c k hc hends | @childCloseWrite c n hc | @exit c n hc =>
    constructor
    · intro i hi
      exact le_of_eq_of_le (total_waitable_same hc rfl) (h.waiting i hi)
    · intro he
      refine Eq.trans (total_waitable_same hc ?_) (h.exited he)
      rfl

/-- Every run is finite, under any schedule that does not hold back the steps which are no
failures, and it only stops when the parent has exited, with no child that it has not waited
for. -/
theorem processes_return (hcap : 0 < capacity) {ok : Processes → Action → Prop}
    (hok : ∀ s a, ¬ a.Fault → ok s a) :
    ((processes capacity).restrict ok).Ends .start fun s =>
      ∃ code, s.parent = .exited code ∧ (code = 0 → ∀ c, ¬ (s.child c).Waitable) := by
  apply System.ends_of_rank (I := fun s n => Inv s ∧ Waited s ∧ s.left = n)
    (n := Processes.start.left)
  · rintro s a s' n ⟨-, hs⟩ ⟨h, hw, rfl⟩
    exact ⟨s'.left, left_step hs h, inv_step hs h, waited_step hs hw, rfl⟩
  · rintro s n ⟨h, hw, -⟩ hstuck
    by_cases hp : ∃ code, s.parent = .exited code
    · obtain ⟨code, hcode⟩ := hp
      refine ⟨code, hcode, ?_⟩
      rintro rfl c
      have hzero := hw.exited hcode
      rw [← waitable_eq_zero_iff]
      unfold total at hzero
      cases c <;> omega
    · push Not at hp
      obtain ⟨a, s', hf, hs⟩ := goes_on hcap h hp
      exact absurd ⟨hok s a hf, hs⟩ (hstuck a s')
  · exact ⟨inv_start, ⟨nofun, nofun⟩, rfl⟩

/-- A pipe that takes one byte at a time is enough. -/
theorem processes_return_one : ((processes 1).restrict fun _ a => ¬ a.Fault).Ends .start fun s =>
    ∃ code, s.parent = .exited code ∧ (code = 0 → ∀ c, ¬ (s.child c).Waitable) :=
  processes_return Nat.one_pos fun _ _ hf => hf

end UnixCodes.PipeOversizeWrite
