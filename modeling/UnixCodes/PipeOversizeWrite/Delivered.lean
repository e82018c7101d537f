import UnixCodes.PipeOversizeWrite.Ends

/-! What the children of `pipe_oversize_write.c` write arrives, in whatever pieces it goes through
the pipe. -/
namespace UnixCodes.PipeOversizeWrite

open Posix Transition

variable {capacity : ℕ} {s s' : Processes} {c : Child} {a : Action} {xs : List Action}

/-- What the children have written, the first child's bytes first. -/
def sentBy (child : Child → ChildPc) : List UInt8 :=
  List.replicate (child .pid1).sent Child.pid1.pattern ++
    List.replicate (child .pid2).sent Child.pid2.pattern

def Action.received : Action → List UInt8
  | .read bs => bs
  | _ => []

/-- What the parent has read in a run. -/
def received (xs : List Action) : List UInt8 := xs.flatMap Action.received

theorem count_sentBy_update (child : Child → ChildPc) (q : ChildPc) (b : UInt8) :
    (sentBy (Function.update child c q)).count b +
        (List.replicate (child c).sent c.pattern).count b =
      (sentBy child).count b + (List.replicate q.sent c.pattern).count b := by
  cases c <;> simp only [sentBy, List.count_append, Function.update_self, ne_eq, reduceCtorEq,
    not_false_eq_true, Function.update_of_ne] <;> omega

theorem count_sentBy_same {child : Child → ChildPc} {q : ChildPc} (hq : (child c).sent = q.sent)
    (b : UInt8) : (sentBy (Function.update child c q)).count b = (sentBy child).count b := by
  have h := count_sentBy_update (c := c) child q b
  rw [hq] at h
  omega

/-- A step neither loses a byte nor makes one up. -/
theorem count_step (hs : Processes.Step capacity s a s') (h : Inv s) (b : UInt8) :
    a.received.count b + s'.pipe.count b + (sentBy s.child).count b =
      s.pipe.count b + (sentBy s'.child).count b := by
  cases hs with
  | @fork c next hp =>
    have habsent := h.absent c (ParentPc.before_of_forks hp).1
    have hsent :
        (sentBy (Function.update s.child c .closeRead)).count b = (sentBy s.child).count b :=
      count_sentBy_same (by rw [habsent]; rfl) b
    simp [Action.received, Processes.fork, Processes.setChild, hsent]
  | @forkError c next hp =>
    have habsent := h.absent c (ParentPc.before_of_forks hp).1
    have hsent : (sentBy (Function.update s.child c .forkFailed)).count b =
        (sentBy s.child).count b := count_sentBy_same (by rw [habsent]; rfl) b
    simp [Action.received, Processes.setChild, hsent]
  | read hp n hpos hle hpipe =>
    have hsplit : (s.pipe.take n).count b + (s.pipe.drop n).count b = s.pipe.count b := by
      rw [← List.count_append, List.take_append_drop]
    simp only [Action.received]
    omega
  | @chunk c k hc n hpos hle hroom hends =>
    have hsent := count_sentBy_update (c := c) s.child (.write (k + n)) b
    have hmore : List.replicate (k + n) c.pattern =
        List.replicate k c.pattern ++ List.replicate n c.pattern := List.replicate_add ..
    simp only [hc, ChildPc.sent, hmore, List.count_append] at hsent
    simp only [Action.received, Processes.setChild, List.count_nil, List.count_append]
    omega
  | @wait i n c hp hc | @childCloseRead c hc | @written c hc | @cut c k hc | @sigpipe c k hc hends
  | @childCloseWrite c n hc | @exit c n hc =>
    simp only [Action.received, Processes.setChild, List.count_nil]
    rw [count_sentBy_same (by rw [hc]; rfl) b]
    omega
  | _ => simp [Action.received]

theorem Inv.count (h : Inv s) (hr : (processes capacity).Run s xs s') (b : UInt8) :
    (received xs).count b + s'.pipe.count b + (sentBy s.child).count b =
      s.pipe.count b + (sentBy s'.child).count b := by
  induction hr with
  | refl => simp [received]
  | @stepL s a u xs s' hs _ ih =>
    have hstep := count_step hs h b
    have hrun := ih (inv_step hs h)
    have hcons : received (a :: xs) = a.received ++ received xs := rfl
    rw [hcons, List.count_append]
    omega

/-- A child that is past its `write` has written everything. -/
def ChildPc.Complete : ChildPc → Prop
  | .closeWrite n | .exit n | .zombie n | .reaped n => n = WRITE_SIZE
  | .forkFailed => False
  | _ => True

/-- The child has closed the write end. -/
def ChildPc.Closed : ChildPc → Prop
  | .exit _ | .zombie _ | .reaped _ => True
  | _ => False

/-- The parent is past its loop. -/
def ParentPc.Finished : ParentPc → Prop
  | .closeRead | .wait _ | .exited _ => True
  | _ => False

/-- What holds as long as nothing fails. -/
structure Clean (s : Processes) : Prop where
  complete : ∀ c, (s.child c).Complete
  created : ∀ c, ¬ s.parent.Before c → s.child c ≠ .absent
  eof : s.parent.Finished → s.pipe = [] ∧ ∀ c, (s.child c).Closed

theorem clean_start : Clean .start :=
  ⟨fun _ => trivial, fun _ hc => absurd trivial hc, False.elim⟩

theorem ParentPc.phases (p : ParentPc) :
    (∀ c, p.Before c) ∨ p.Forking ∨ p.Reading ∨ p.Finished := by
  cases p <;> simp [Before, Forking, Reading, Finished]

/-- A step of the parent before the end of its loop. -/
theorem Clean.parent {p : ParentPc} {pipe stdout : List UInt8} {readEnds writeEnds : Finset Proc}
    (h : Clean s) (hbefore : ∀ c, s.parent.Before c → p.Before c) (hp : ¬ p.Finished) :
    Clean ⟨pipe, readEnds, writeEnds, s.child, p, stdout⟩ :=
  ⟨h.complete, fun c hc => h.created c fun hb => hc (hbefore c hb), fun hf => absurd hf hp⟩

/-- A step of the parent behind its loop. -/
theorem Clean.finished {p : ParentPc} {readEnds : Finset Proc} (h : Clean s)
    (hp : s.parent.Finished) (hbefore : ∀ c, ¬ s.parent.Before c) :
    Clean ⟨s.pipe, readEnds, s.writeEnds, s.child, p, s.stdout⟩ :=
  ⟨h.complete, fun c _ => h.created c (hbefore c), fun _ => h.eof hp⟩

/-- A step of a child, or of the parent that moves a child. -/
theorem Clean.child {p : ParentPc} {q : ChildPc} {pipe : List UInt8}
    {readEnds writeEnds : Finset Proc} (h : Clean s)
    (hbefore : ∀ d, d ≠ c → s.parent.Before d → p.Before d) (hq : q.Complete)
    (hcreated : q ≠ .absent) (hfinished : p.Finished → s.parent.Finished)
    (heof : p.Finished → pipe = s.pipe ∧ q.Closed) :
    Clean ⟨pipe, readEnds, writeEnds, Function.update s.child c q, p, s.stdout⟩ := by
  have hchild (d : Child) (hne : d ≠ c) : Function.update s.child c q d = s.child d :=
    Function.update_of_ne hne ..
  refine ⟨?_, ?_, ?_⟩
  · intro d
    dsimp only
    rcases eq_or_ne d c with rfl | hne
    · rwa [Function.update_self]
    · rw [hchild d hne]
      exact h.complete d
  · intro d hd
    dsimp only
    rcases eq_or_ne d c with rfl | hne
    · rwa [Function.update_self]
    · rw [hchild d hne]
      exact h.created d fun hb => hd (hbefore d hne hb)
  · intro hp
    obtain ⟨hpipe, hclosed⟩ := h.eof (hfinished hp)
    obtain ⟨he, hq⟩ := heof hp
    refine ⟨he.trans hpipe, fun d => ?_⟩
    dsimp only
    rcases eq_or_ne d c with rfl | hne
    · rwa [Function.update_self]
    · rw [hchild d hne]
      exact hclosed d

/-- A step of a child that still has the write end. -/
theorem Clean.child_goes {q r : ChildPc} {pipe : List UInt8} {readEnds writeEnds : Finset Proc}
    (h : Clean s) (hc : s.child c = q) (hq : ¬ q.Closed) (hr : r.Complete) (hne : r ≠ .absent) :
    Clean ⟨pipe, readEnds, writeEnds, Function.update s.child c r, s.parent, s.stdout⟩ := by
  have hrun : ¬ s.parent.Finished := fun hf => hq (hc ▸ (h.eof hf).2 c)
  exact h.child (fun _ _ hb => hb) hr hne id fun hf => absurd hf hrun

/-- With a reader there is no `SIGPIPE`. -/
theorem Clean.has_reader (h : Clean s) (hi : Inv s) {k : ℕ} (hc : s.child c = .write k) :
    s.readEnds ≠ ∅ := by
  have hmem : none ∈ s.readEnds := by
    rw [hi.parentRead]
    rcases s.parent.phases with hb | hf | hr | hend
    · have habsent := hi.absent c (hb c)
      rw [hc] at habsent
      cases habsent
    · exact .inl hf
    · exact .inr hr
    · have hclosed := (h.eof hend).2 c
      rw [hc] at hclosed
      exact hclosed.elim
  exact Finset.ne_empty_of_mem hmem

theorem clean_step (hs : Processes.Step capacity s a s') (hf : ¬ a.Fault) (hi : Inv s)
    (h : Clean s) : Clean s' := by
  have hcomplete := h.complete
  cases hs with
  | pipe hp => exact h.parent (fun _ _ => trivial) id
  | pipeError hp => exact absurd trivial hf
  | @fork c next hp =>
    obtain ⟨-, -, hfork, hbefore⟩ := ParentPc.before_of_forks hp
    have hnext : ¬ next.Finished := by
      cases next <;> simp_all [ParentPc.Forking, ParentPc.Finished]
    exact h.child (fun d hne hd => (hbefore d).mpr ⟨hd, hne⟩) trivial (by simp)
      (fun hend => absurd hend hnext) fun hend => absurd hend hnext
  | forkError hp => exact absurd trivial hf
  | closeWrite hp =>
    refine h.parent (fun c hc => ?_) id
    rw [hp] at hc
    exact hc.elim
  | read hp n hpos hle hpipe =>
    refine h.parent (fun c hc => ?_) id
    rw [hp] at hc
    exact hc.elim
  | readEof hp hpipe hends =>
    have hnot (c : Child) : ¬ s.parent.Before c := by
      rw [hp]
      exact id
    refine ⟨h.complete, fun c _ => h.created c (hnot c), fun _ => ⟨hpipe, fun c => ?_⟩⟩
    have hwrite : ¬ (s.child c).CanWrite := by
      rw [← hi.canWrite, hends]
      exact Finset.notMem_empty _
    have hcreated := h.created c (hnot c)
    have hc := h.complete c
    dsimp only
    rcases hq : s.child c with _ | _ | _ | n | n | n | n | n <;>
      simp_all [ChildPc.CanWrite, ChildPc.Complete, ChildPc.Closed]
  | readError hp e => exact absurd trivial hf
  | print hp r =>
    refine h.parent (fun c hc => ?_) id
    rw [hp] at hc
    exact hc.elim
  | closeRead hp =>
    exact h.finished (by rw [hp]; trivial) fun c => by rw [hp]; exact id
  | @wait i n c hp hc =>
    have hn := hcomplete c
    rw [hc] at hn
    refine h.child (fun d _ hd => ?_) hn (by simp) (fun _ => ?_) fun _ => ⟨rfl, trivial⟩
    · rw [hp] at hd
      exact hd.elim
    · rw [hp]
      trivial
  | waitNone hp hc =>
    exact h.finished (by rw [hp]; trivial) fun c => by rw [hp]; exact id
  | ret hp =>
    exact h.finished (by rw [hp]; trivial) fun c => by rw [hp]; exact id
  | childCloseRead hc => exact h.child_goes hc id trivial (by simp)
  | chunk hc n hpos hle hroom hends => exact h.child_goes hc id trivial (by simp)
  | written hc => exact h.child_goes hc id rfl (by simp)
  | cut hc => exact absurd trivial hf
  | sigpipe hc hends => exact absurd hends (h.has_reader hi hc)
  | @childCloseWrite c n hc =>
    have hn := hcomplete c
    rw [hc] at hn
    exact h.child_goes hc id hn (by simp)
  | @exit c n hc =>
    have hn := hcomplete c
    rw [hc] at hn
    exact h.child (fun _ _ hb => hb) hn (by simp) id fun _ => ⟨rfl, trivial⟩

theorem clean_run (hr : (processes capacity).Run s xs s') (hf : ∀ a ∈ xs, ¬ a.Fault)
    (hi : Inv s) (h : Clean s) : Clean s' := by
  induction hr with
  | refl => exact h
  | @stepL s a u xs s' hs _ ih =>
    obtain ⟨ha, hxs⟩ := List.forall_mem_cons.mp hf
    exact ih hxs (inv_step hs hi) (clean_step hs ha hi h)

/-- What the parent has got and not written. -/
def ParentPc.held : ParentPc → List UInt8
  | .write buf => buf
  | _ => []

/-- A `write` of the parent takes everything. -/
def Action.Full : Action → Prop
  | .print n r => r.accepted = n
  | _ => True

theorem stdout_step (hs : Processes.Step capacity s a s') (hfull : a.Full) :
    s'.stdout ++ s'.parent.held = s.stdout ++ s.parent.held ++ a.received := by
  cases hs with
  | @fork c next hp | @forkError c next hp =>
    have hheld : next.held = [] ∧ s.parent.held = [] := by
      rcases hq : s.parent <;> rw [hq] at hp <;> cases hp <;> exact ⟨rfl, rfl⟩
    simp [Processes.fork, Processes.setChild, hheld, Action.received]
  | @print buf hp r =>
    have htake : buf.take r.accepted = buf := List.take_of_length_le (Nat.le_of_eq hfull.symm)
    simp [hp, ParentPc.held, htake, Action.received]
  | read hp n hpos hle hpipe => simp [hp, ParentPc.held, Action.received]
  | pipe hp | pipeError hp | closeWrite hp | readEof hp hpipe hends | readError hp e
  | closeRead hp | wait hp hc | waitNone hp hc | ret hp =>
    simp [hp, ParentPc.held, Action.received, Processes.setChild]
  | _ => simp [Action.received, Processes.setChild]

theorem stdout_run (hr : (processes capacity).Run s xs s') (hfull : ∀ a ∈ xs, a.Full) :
    s'.stdout ++ s'.parent.held = s.stdout ++ s.parent.held ++ received xs := by
  induction hr with
  | refl => simp [received]
  | @stepL s a u xs s' hs _ ih =>
    obtain ⟨ha, hxs⟩ := List.forall_mem_cons.mp hfull
    have hcons : received (a :: xs) = a.received ++ received xs := rfl
    rw [ih hxs, stdout_step hs ha, hcons, List.append_assoc]

/-- Nothing is lost or doubled on the way through the pipe, and where nothing fails the parent
ends with all bytes of both children; what it writes is what it has read, as long as its `write`
takes everything. -/
theorem delivered (hr : (processes capacity).Run .start xs s) :
    (received xs ++ s.pipe).Perm (sentBy s.child) ∧
      ((∀ a ∈ xs, a.Full) → s.stdout ++ s.parent.held = received xs) ∧
      ((∀ a ∈ xs, ¬ a.Fault) → s.parent = .exited 0 →
        (received xs).Perm (List.replicate WRITE_SIZE 65 ++ List.replicate WRITE_SIZE 66)) := by
  have hperm : (received xs ++ s.pipe).Perm (sentBy s.child) := by
    rw [List.perm_iff_count]
    intro b
    have hcount := inv_start.count hr b
    have hnone : (sentBy Processes.start.child).count b = 0 := rfl
    have hempty : Processes.start.pipe.count b = 0 := rfl
    rw [List.count_append]
    omega
  refine ⟨hperm, fun hfull => stdout_run hr hfull, fun hf hexit => ?_⟩
  have hclean := clean_run hr hf inv_start clean_start
  obtain ⟨hpipe, hclosed⟩ := hclean.eof (by rw [hexit]; trivial)
  have hsent (c : Child) : (s.child c).sent = WRITE_SIZE := by
    have hc := hclean.complete c
    have hcl := hclosed c
    rcases hq : s.child c with _ | _ | _ | n | n | n | n | n <;>
      simp_all [ChildPc.Complete, ChildPc.Closed, ChildPc.sent]
  rw [hpipe, List.append_nil] at hperm
  simpa only [sentBy, hsent, Child.pattern] using hperm

/-- The parent empties the pipe. -/
theorem run_drain (capacity : ℕ) (hp : s.parent = .read) :
    ∃ xs, (processes capacity).Run s xs
        { s with pipe := [], parent := .read, stdout := s.stdout ++ s.pipe } ∧
      ∀ a ∈ xs, ¬ a.Fault ∧ a.Full := by
  induction hm : s.pipe.length using Nat.strong_induction_on generalizing s with
  | h m ih =>
    by_cases hnil : s.pipe = []
    · have hend : { s with pipe := [], parent := .read, stdout := s.stdout ++ s.pipe } = s := by
        rw [hnil, List.append_nil, ← hnil, ← hp]
      refine ⟨[], ?_, by simp⟩
      rw [hend]
      exact .refl
    · have hpos : 0 < s.pipe.length := List.length_pos_of_ne_nil hnil
      have hsize : 0 < READ_SIZE := by decide
      obtain ⟨n, hn⟩ : ∃ n, n = min READ_SIZE s.pipe.length := ⟨_, rfl⟩
      let buf := s.pipe.take n
      let s₁ : Processes := { s with pipe := s.pipe.drop n, parent := .write buf }
      have hread : (processes capacity).Step s (.read buf) s₁ :=
        .read hp n (by omega) (by omega) (by omega)
      let s₂ : Processes := { s₁ with stdout := s.stdout ++ buf, parent := .read }
      have hprint : (processes capacity).Step s₁ (.print buf.length (.count buf.length le_rfl))
          s₂ := by
        have hend : { s₂ with stdout := s.stdout ++ buf.take buf.length } = s₂ := by
          rw [List.take_length]
        exact hend ▸ .print rfl _
      obtain ⟨xs, hrest, hxs⟩ := ih (s.pipe.drop n).length (by rw [List.length_drop]; omega)
        (s := s₂) rfl rfl
      have hend : s.stdout ++ buf ++ s.pipe.drop n = s.stdout ++ s.pipe := by
        rw [List.append_assoc, List.take_append_drop]
      refine ⟨_ :: _ :: xs, .stepL hread (.stepL hprint ?_), ?_⟩
      · rw [← hend]
        exact hrest
      · intro a ha
        rcases List.mem_cons.mp ha with rfl | ha
        · exact ⟨id, trivial⟩
        rcases List.mem_cons.mp ha with rfl | ha
        · exact ⟨id, rfl⟩
        · exact hxs a ha

/-- The first child's bytes come in two pieces, with the second child's between them. -/
def inTurn : List Action :=
  [.parent, .parent, .parent, .parent, .child .pid1, .child .pid2, .chunk .pid1 5000,
    .chunk .pid2 8192, .chunk .pid1 3192, .child .pid1, .child .pid2, .child .pid1, .child .pid2,
    .child .pid1, .child .pid2]

theorem run_inTurn : ∃ s, (processes 16384).Run .start inTurn s ∧ s.parent = .read ∧
    s.writeEnds = ∅ ∧ s.child .pid1 = .zombie WRITE_SIZE ∧ s.child .pid2 = .zombie WRITE_SIZE := by
  refine ⟨_, .stepL (.pipe rfl) (.stepL (.fork rfl) (.stepL (.fork rfl) (.stepL (.closeWrite rfl)
    (.stepL (.childCloseRead rfl) (.stepL (.childCloseRead rfl)
    (.stepL (.chunk rfl 5000 (by decide) (by decide) ?_ (by decide))
    (.stepL (.chunk rfl 8192 (by decide) (by decide) ?_ (by decide))
    (.stepL (.chunk rfl 3192 (by decide) (by decide) ?_ (by decide))
    (.stepL (.written rfl) (.stepL (.written rfl)
    (.stepL (.childCloseWrite rfl) (.stepL (.childCloseWrite rfl)
    (.stepL (.exit rfl) (.stepL (.exit rfl) .refl)))))))))))))),
    rfl, by decide, rfl, rfl⟩
  all_goals
    simp only [Processes.setChild, Processes.fork, Processes.start, List.length_append,
      List.length_replicate, List.length_nil]
    decide

/-- Both children have written everything, and the parent exits with 0. -/
theorem run_exits : ∃ xs s, (processes 16384).Run .start xs s ∧ s.parent = .exited 0 ∧
    ∀ a ∈ xs, ¬ a.Fault ∧ a.Full := by
  obtain ⟨s, hr, hp, hends, hpid1, hpid2⟩ := run_inTurn
  obtain ⟨xs, hdrain, hxs⟩ := run_drain 16384 hp
  have hinTurn : ∀ a ∈ inTurn, ¬ a.Fault ∧ a.Full := by simp [inTurn, Action.Fault, Action.Full]
  have hlast : ∀ a ∈ [Action.read [], .parent, .wait .pid1, .wait .pid2, .parent],
      ¬ a.Fault ∧ a.Full := by simp [Action.Fault, Action.Full]
  refine ⟨_, _, hr.append (hdrain.append (.stepL (.readEof rfl rfl hends) (.stepL (.closeRead rfl)
    (.stepL (.wait (c := .pid1) rfl hpid1) (.stepL (.wait (c := .pid2) rfl hpid2)
      (.stepL (.ret rfl) .refl)))))), rfl, ?_⟩
  intro a ha
  rcases List.mem_append.mp ha with ha | ha
  · exact hinTurn a ha
  rcases List.mem_append.mp ha with ha | ha
  · exact hxs a ha
  · exact hlast a ha

theorem delivered_exits : ∃ xs s, (processes 16384).Run .start xs s ∧ s.parent = .exited 0 ∧
    (received xs).Perm (List.replicate WRITE_SIZE 65 ++ List.replicate WRITE_SIZE 66) ∧
    s.stdout = received xs := by
  obtain ⟨xs, s, hr, hexit, hxs⟩ := run_exits
  obtain ⟨-, hprinted, hall⟩ := delivered hr
  have hstdout := hprinted fun a ha => (hxs a ha).2
  rw [hexit] at hstdout
  refine ⟨xs, s, hr, hexit, hall (fun a ha => (hxs a ha).1) hexit, ?_⟩
  exact (List.append_nil _).symm.trans hstdout

end UnixCodes.PipeOversizeWrite
