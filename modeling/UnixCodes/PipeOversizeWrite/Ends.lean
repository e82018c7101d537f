import UnixCodes.PipeOversizeWrite.Model

/-! Who has the ends of the pipe of `pipe_oversize_write.c` open. -/
namespace UnixCodes.PipeOversizeWrite

open Posix Transition

variable {capacity : ℕ} {s s' : Processes} {c : Child} {a : Action}

/-- A call that fails, or a `write` of a child that ends early. -/
def Action.Fault : Action → Prop
  | .pipeError | .forkError | .readError _ | .cut _ => True
  | _ => False

/-- The bytes that a child has written. -/
def ChildPc.sent : ChildPc → ℕ
  | .absent | .forkFailed | .closeRead => 0
  | .write n | .closeWrite n | .exit n | .zombie n | .reaped n => n

/-- The child has the write end open. -/
def ChildPc.CanWrite : ChildPc → Prop
  | .closeRead | .write _ | .closeWrite _ => True
  | _ => False

/-- The `fork` of the child is still to come. -/
def ParentPc.Before : ParentPc → Child → Prop
  | .pipe, _ | .fork1, _ => True
  | .fork2, c => c = .pid2
  | _, _ => False

/-- The parent has both ends open. -/
def ParentPc.Forking : ParentPc → Prop
  | .fork1 | .fork2 | .closeWrite => True
  | _ => False

/-- The parent has only the read end open. -/
def ParentPc.Reading : ParentPc → Prop
  | .read | .write _ | .closeRead => True
  | _ => False

structure Inv (s : Processes) : Prop where
  absent : ∀ c, s.parent.Before c → s.child c = .absent
  canWrite : ∀ c, some c ∈ s.writeEnds ↔ (s.child c).CanWrite
  canRead : ∀ c, some c ∈ s.readEnds → s.child c = .closeRead
  parentWrite : none ∈ s.writeEnds ↔ s.parent.Forking
  parentRead : none ∈ s.readEnds ↔ s.parent.Forking ∨ s.parent.Reading
  bound : ∀ c, (s.child c).sent ≤ WRITE_SIZE

theorem inv_start : Inv .start := by
  refine ⟨?_, ?_, ?_, ?_, ?_, ?_⟩ <;> simp [Processes.start, ChildPc.CanWrite, ParentPc.Forking,
    ParentPc.Reading, ChildPc.sent]

/-- A step of the parent that moves nothing but itself and its ends. -/
theorem Inv.parent {p : ParentPc} {pipe stdout : List UInt8} {readEnds writeEnds : Finset Proc}
    (h : Inv s) (hbefore : ∀ c, p.Before c → s.parent.Before c)
    (hwrite : ∀ c, some c ∈ writeEnds ↔ some c ∈ s.writeEnds)
    (hread : ∀ c, some c ∈ readEnds ↔ some c ∈ s.readEnds)
    (hforking : none ∈ writeEnds ↔ p.Forking)
    (hreading : none ∈ readEnds ↔ p.Forking ∨ p.Reading) :
    Inv ⟨pipe, readEnds, writeEnds, s.child, p, stdout⟩ where
  absent c hc := h.absent c (hbefore c hc)
  canWrite c := (hwrite c).trans (h.canWrite c)
  canRead c hc := h.canRead c ((hread c).mp hc)
  parentWrite := hforking
  parentRead := hreading
  bound := h.bound

/-- A step of a child, or of the parent that moves a child. -/
theorem Inv.child {q : ChildPc} {p : ParentPc} {pipe : List UInt8}
    {readEnds writeEnds : Finset Proc} (h : Inv s)
    (hbefore : ∀ d, p.Before d → s.parent.Before d ∧ d ≠ c)
    (hforking : p.Forking ↔ s.parent.Forking) (hreading : p.Reading ↔ s.parent.Reading)
    (hwrite : ∀ x, x ≠ some c → (x ∈ writeEnds ↔ x ∈ s.writeEnds))
    (hread : ∀ x, x ≠ some c → (x ∈ readEnds ↔ x ∈ s.readEnds))
    (hself : some c ∈ writeEnds ↔ q.CanWrite) (hclose : some c ∈ readEnds → q = .closeRead)
    (hsent : q.sent ≤ WRITE_SIZE) :
    Inv ⟨pipe, readEnds, writeEnds, Function.update s.child c q, p, s.stdout⟩ := by
  have hchild (d : Child) (hne : d ≠ c) : Function.update s.child c q d = s.child d :=
    Function.update_of_ne hne ..
  have hsome (d : Child) (hne : d ≠ c) : some d ≠ some c := fun he => hne (Option.some.inj he)
  refine ⟨?_, ?_, ?_, ?_, ?_, ?_⟩
  · intro d hd
    obtain ⟨hd, hne⟩ := hbefore d hd
    exact (hchild d hne).trans (h.absent d hd)
  · intro d
    dsimp only
    rcases eq_or_ne d c with rfl | hne
    · rwa [Function.update_self]
    · rw [hchild d hne, hwrite _ (hsome d hne)]
      exact h.canWrite d
  · intro d hd
    dsimp only at hd ⊢
    rcases eq_or_ne d c with rfl | hne
    · rw [Function.update_self]
      exact hclose hd
    · rw [hchild d hne]
      exact h.canRead d ((hread _ (hsome d hne)).mp hd)
  · rw [hforking, ← h.parentWrite]
    exact hwrite none nofun
  · rw [hforking, hreading, ← h.parentRead]
    exact hread none nofun
  · intro d
    dsimp only
    rcases eq_or_ne d c with rfl | hne
    · rwa [Function.update_self]
    · rw [hchild d hne]
      exact h.bound d

theorem ParentPc.before_of_forks {p next : ParentPc} (hp : p.forks = some (c, next)) :
    p.Before c ∧ p.Forking ∧ next.Forking ∧ ∀ d, next.Before d ↔ p.Before d ∧ d ≠ c := by
  cases p <;> cases hp <;> refine ⟨by simp [Before], trivial, trivial, ?_⟩ <;> intro d <;>
    cases d <;> simp [Before]

theorem not_reading_of_forking {p : ParentPc} (hp : p.Forking) : ¬ p.Reading := by
  cases p <;> simp_all [ParentPc.Forking, ParentPc.Reading]

theorem inv_fork {next : ParentPc} (h : Inv s) (hp : s.parent.forks = some (c, next)) :
    Inv (s.fork c next) := by
  obtain ⟨-, hf, hf', hbefore⟩ := ParentPc.before_of_forks hp
  have hread : none ∈ s.readEnds := h.parentRead.mpr (.inl hf)
  have hwrite : none ∈ s.writeEnds := h.parentWrite.mpr hf
  refine h.child (fun d => (hbefore d).mp) (iff_of_true hf' hf)
    (iff_of_false (not_reading_of_forking hf') (not_reading_of_forking hf)) ?_ ?_ ?_ ?_
    (Nat.zero_le _)
  · intro x hx
    simp [hwrite, hx]
  · intro x hx
    simp [hread, hx]
  · rw [if_pos hwrite]
    exact iff_of_true (Finset.mem_insert_self ..) trivial
  · exact fun _ => rfl

theorem inv_forkError {next : ParentPc} (h : Inv s) (hp : s.parent.forks = some (c, next)) :
    Inv { s.setChild c .forkFailed with parent := next } := by
  obtain ⟨hc, hf, hf', hbefore⟩ := ParentPc.before_of_forks hp
  have habsent := h.absent c hc
  refine h.child (fun d => (hbefore d).mp) (iff_of_true hf' hf)
    (iff_of_false (not_reading_of_forking hf') (not_reading_of_forking hf))
    (fun _ _ => Iff.rfl) (fun _ _ => Iff.rfl) ?_ ?_ (Nat.zero_le _)
  · refine iff_of_false ?_ id
    intro hmem
    have hcan := (h.canWrite c).mp hmem
    rw [habsent] at hcan
    exact hcan
  · intro hmem
    have hclose := h.canRead c hmem
    rw [habsent] at hclose
    cases hclose

/-- A step of the parent that leaves the ends as they are. -/
theorem Inv.goes {p q : ParentPc} {pipe stdout : List UInt8} (h : Inv s) (hp : s.parent = p)
    (hbefore : ∀ c, ¬ q.Before c) (hforking : p.Forking ↔ q.Forking)
    (hreading : p.Reading ↔ q.Reading) :
    Inv ⟨pipe, s.readEnds, s.writeEnds, s.child, q, stdout⟩ := by
  refine h.parent (fun c hc => absurd hc (hbefore c)) (fun _ => Iff.rfl) (fun _ => Iff.rfl) ?_ ?_
  · rw [h.parentWrite, hp, hforking]
  · rw [h.parentRead, hp, hforking, hreading]

/-- A step of a child that is past its `close` of the read end. -/
theorem Inv.step_child {q : ChildPc} {pipe : List UInt8} {writeEnds : Finset Proc} (h : Inv s)
    (hc : s.child c ≠ .absent) (hclose : s.child c ≠ .closeRead)
    (hwrite : ∀ x, x ≠ some c → (x ∈ writeEnds ↔ x ∈ s.writeEnds))
    (hself : some c ∈ writeEnds ↔ q.CanWrite) (hsent : q.sent ≤ WRITE_SIZE) :
    Inv ⟨pipe, s.readEnds, writeEnds, Function.update s.child c q, s.parent, s.stdout⟩ := by
  refine h.child ?_ Iff.rfl Iff.rfl hwrite (fun _ _ => Iff.rfl) hself ?_ hsent
  · rintro d hd
    refine ⟨hd, ?_⟩
    rintro rfl
    exact hc (h.absent d hd)
  · intro hmem
    exact absurd (h.canRead c hmem) hclose

/-- A step of such a child that leaves the ends as they are. -/
theorem Inv.child_goes {q r : ChildPc} {pipe : List UInt8} (h : Inv s) (hc : s.child c = q)
    (hne : q ≠ .absent) (hclose : q ≠ .closeRead) (hcan : q.CanWrite ↔ r.CanWrite)
    (hsent : r.sent ≤ WRITE_SIZE) :
    Inv ⟨pipe, s.readEnds, s.writeEnds, Function.update s.child c r, s.parent, s.stdout⟩ := by
  refine h.step_child (hc ▸ hne) (hc ▸ hclose) (fun _ _ => Iff.rfl) ?_ hsent
  rw [h.canWrite, hc, hcan]

theorem inv_step (hs : Processes.Step capacity s a s') (h : Inv s) : Inv s' := by
  have herase {x y : Proc} {ends : Finset Proc} (hne : x ≠ y) : x ∈ ends.erase y ↔ x ∈ ends :=
    Finset.mem_erase.trans (and_iff_right hne)
  have hclosed {x : Proc} {ends : Finset Proc} : x ∉ ends.erase x := Finset.notMem_erase x ends
  cases hs with
  | pipe hp =>
    have habsent (c : Child) : s.child c = .absent := h.absent c (by rw [hp]; trivial)
    refine ⟨?_, ?_, ?_, ?_, ?_, h.bound⟩
    · exact fun c _ => habsent c
    · intro c
      simp [habsent, ChildPc.CanWrite]
    · intro c hc
      simp at hc
    · exact iff_of_true (Finset.mem_singleton_self _) trivial
    · exact iff_of_true (Finset.mem_singleton_self _) (.inl trivial)
  | pipeError hp => exact h.goes hp nofun Iff.rfl Iff.rfl
  | fork hp => exact inv_fork h hp
  | forkError hp => exact inv_forkError h hp
  | closeWrite hp =>
    refine h.parent nofun (fun c => herase nofun) (fun _ => Iff.rfl) (iff_of_false hclosed id) ?_
    exact iff_of_true (h.parentRead.mpr (.inl (by rw [hp]; trivial))) (.inr trivial)
  | read hp n hpos hle hpipe => exact h.goes hp nofun Iff.rfl Iff.rfl
  | readEof hp hpipe hends => exact h.goes hp nofun Iff.rfl Iff.rfl
  | readError hp e => exact h.goes hp nofun Iff.rfl Iff.rfl
  | print hp r => exact h.goes hp nofun Iff.rfl Iff.rfl
  | closeRead hp =>
    have hw := h.parentWrite
    rw [hp] at hw
    refine h.parent nofun (fun _ => Iff.rfl) (fun c => herase nofun) hw ?_
    exact iff_of_false hclosed (by rintro (hf | hr) <;> assumption)
  | @wait i n c hp hc =>
    have hbound := h.bound c
    rw [hc] at hbound
    refine h.child nofun ?_ ?_ (fun _ _ => Iff.rfl) (fun _ _ => Iff.rfl) ?_ ?_ hbound
    · rw [hp]
      exact Iff.rfl
    · rw [hp]
      exact Iff.rfl
    · have hcan := h.canWrite c
      rw [hc] at hcan
      exact hcan
    · intro hmem
      have hclose := h.canRead c hmem
      rw [hc] at hclose
      cases hclose
  | waitNone hp hc => exact h.goes hp nofun Iff.rfl Iff.rfl
  | ret hp => exact h.goes hp nofun Iff.rfl Iff.rfl
  | @childCloseRead c hc =>
    refine h.child ?_ Iff.rfl Iff.rfl (fun _ _ => Iff.rfl) (fun x hx => herase hx) ?_ ?_
      (Nat.zero_le _)
    · rintro d hd
      refine ⟨hd, ?_⟩
      rintro rfl
      rw [h.absent d hd] at hc
      cases hc
    · have hcan := h.canWrite c
      rw [hc] at hcan
      exact hcan
    · exact fun hmem => absurd hmem hclosed
  | chunk hc n hpos hle hroom hends => exact h.child_goes hc nofun nofun Iff.rfl hle
  | written hc => exact h.child_goes hc nofun nofun Iff.rfl le_rfl
  | @cut c k hc =>
    have hbound := h.bound c
    rw [hc] at hbound
    exact h.child_goes hc nofun nofun Iff.rfl hbound
  | @sigpipe c k hc hends =>
    have hbound := h.bound c
    rw [hc] at hbound
    exact h.step_child (by simp [hc]) (by simp [hc]) (fun x hx => herase hx)
      (iff_of_false hclosed id) hbound
  | @childCloseWrite c n hc =>
    have hbound := h.bound c
    rw [hc] at hbound
    exact h.step_child (by simp [hc]) (by simp [hc]) (fun x hx => herase hx)
      (iff_of_false hclosed id) hbound
  | @exit c n hc =>
    have hbound := h.bound c
    rw [hc] at hbound
    exact h.child_goes hc nofun nofun Iff.rfl hbound

theorem inv_reachable (h : (processes capacity).Reachable s) : Inv s := by
  apply System.reachable_invariant ?_ (fun _ _ _ hs hi => inv_step hs hi) h
  rintro _ rfl
  exact inv_start

end UnixCodes.PipeOversizeWrite
