import UnixCodes.SigMask.Model

/-! Whether `sig_mask.c` lets a blocked `SIGINT` through once `SIGTERM` has been handled. -/
namespace UnixCodes.SigMask

open Transition

variable {oldSigMask : Finset Signal} {s t u : Process} {a : Action} {xs : List Action}

/-- The mask below the handlers that run. -/
def base : Finset Signal → List Handler → Finset Signal
  | sigMask, [] => sigMask
  | _, f :: fs => base f.saved fs

/-- The mask that `main` goes on with. -/
def Process.mainMask (s : Process) : Finset Signal := base s.sigMask s.handlers

/-- `main` does not get out of `pause` unless a handler runs. -/
def Suspended (s : Process) : Prop := s.point = .paused ∧ s.handlers = []

/-- `main` waits in `pause` while `SIGINT`, which it should let through, is pending. -/
structure Stuck (s : Process) : Prop where
  suspended : Suspended s
  flag : s.unblockSigInt = true
  pending : .sigint ∈ s.pending
  blocked : .sigint ∈ s.sigMask

/-- `main` gets to `pause` without another call of `sigpending`. -/
def Unattended (s : Process) : Prop :=
  s.point = .pause ∨ Suspended s ∨ ∃ set, s.point = .sigismember set ∧ .sigint ∉ set

/-- While `main` is unattended and blocks `SIGINT`, none arrives after `SIGTERM` has been handled,
and no handler of `SIGTERM` sets the flag when one is pending. -/
def Timely (s : Process) : Action → Prop
  | .arrive .sigint =>
    ¬ (s.unblockSigInt = true ∧ .sigint ∈ s.mainMask ∧ Unattended s)
  | .handler => ∀ saved hs, s.handlers = ⟨.sigterm, saved, false⟩ :: hs →
    ¬ (.sigint ∈ s.pending ∧ .sigint ∈ s.mainMask ∧ Unattended s)
  | _ => True

/-- `main` is going to be stuck. -/
structure Doomed (s : Process) : Prop where
  blocked : .sigint ∈ s.mainMask
  flag : s.unblockSigInt = true
  pending : .sigint ∈ s.pending
  unattended : Unattended s

/-- What `main` blocks, the handlers block as well. -/
def Masked (s : Process) : Prop :=
  .sigint ∈ s.mainMask → .sigint ∈ s.sigMask ∧ ∀ f ∈ s.handlers, .sigint ∈ f.saved

theorem mainMask_nil (hh : s.handlers = []) : s.mainMask = s.sigMask := by
  rw [Process.mainMask, hh, base]

theorem mainMask_cons {f : Handler} {fs : List Handler} (hh : s.handlers = f :: fs) :
    s.mainMask = base f.saved fs := by
  rw [Process.mainMask, hh, base]

/-- A handler gives the mask back that it has found. -/
theorem mainMask_handler (hs : Process.Step oldSigMask s .handler t) :
    t.mainMask = s.mainMask := by
  cases hs with
  | handleSigint hh | handleSigterm hh | sigreturn hh => exact (mainMask_cons hh).symm

/-- Only the call of `sigprocmask` changes the mask of `main`. -/
theorem mainMask_step (hs : Process.Step oldSigMask s a t) :
    t.mainMask = s.mainMask ∨ t.mainMask = oldSigMask := by
  cases a with
  | handler => exact .inl (mainMask_handler hs)
  | main =>
    cases hs with
    | sigprocmask hh hp => exact .inr (mainMask_nil hh)
    | pause hh hp | test hh hp | sigpending hh hp | sigismember hh hp => exact .inl rfl
  | arrive sigNum | deliver sigNum | fail =>
    cases hs
    exact .inl rfl

theorem masked_step (hs : Process.Step oldSigMask s a t) (h : Masked s) : Masked t := by
  cases hs with
  | deliver hp sigNum hpending hmask =>
    intro hmain
    obtain ⟨hin, hall⟩ := h hmain
    exact ⟨Finset.mem_insert_of_mem hin, List.forall_mem_cons.mpr ⟨hin, hall⟩⟩
  | handleSigint hh | handleSigterm hh =>
    intro hmain
    obtain ⟨hin, hall⟩ := h ((mainMask_cons hh).symm ▸ hmain)
    rw [hh] at hall
    exact ⟨hin, List.forall_mem_cons.mpr (List.forall_mem_cons.mp hall)⟩
  | sigreturn hh =>
    intro hmain
    obtain ⟨-, hall⟩ := h ((mainMask_cons hh).symm ▸ hmain)
    rw [hh] at hall
    exact List.forall_mem_cons.mp hall
  | sigprocmask hh hp =>
    intro hmain
    refine ⟨?_, by simp [hh]⟩
    rw [mainMask_nil ?_] at hmain
    · exact hmain
    · exact hh
  | _ => exact h

theorem masked_reachable (h : (process oldSigMask).Reachable s) : Masked s := by
  apply System.reachable_invariant ?_ ?_ h
  · intro s hi _
    refine ⟨?_, by simp [hi.handlers]⟩
    rw [hi.sigMask]
    exact Finset.mem_insert_self ..
  · intro s a t hs hmasked
    exact masked_step hs hmasked

/-- With handlers running, `main` is unattended where it stands. -/
theorem unattended_congr (h : Unattended s) (hs : s.handlers ≠ []) (hpoint : t.point = s.point) :
    Unattended t := by
  rcases h with hp | ⟨-, hh⟩ | ⟨set, hp, hset⟩
  · exact .inl (hpoint.trans hp)
  · exact absurd hh hs
  · exact .inr (.inr ⟨set, hpoint.trans hp, hset⟩)

/-- A handler that returns does not leave `main` in `pause`. -/
theorem unattended_sigreturn (h : Unattended t)
    (hpoint : t.point = if t.handlers = [] ∧ s.point = .paused then .test else s.point) :
    s.point = .pause ∨ ∃ set, s.point = .sigismember set ∧ .sigint ∉ set := by
  by_cases hwoken : t.handlers = [] ∧ s.point = .paused
  · rw [if_pos hwoken] at hpoint
    simp [Unattended, Suspended, hpoint] at h
  · rw [if_neg hwoken] at hpoint
    rcases h with hp | ⟨hp, hh⟩ | ⟨set, hp, hset⟩
    · exact .inl (hpoint.symm.trans hp)
    · exact absurd ⟨hh, hpoint.symm.trans hp⟩ hwoken
    · exact .inr ⟨set, hpoint.symm.trans hp, hset⟩

theorem not_doomed_step (hold : .sigint ∉ oldSigMask) (hs : Process.Step oldSigMask s a t)
    (hok : Timely s a) (h : ¬ Doomed s) : ¬ Doomed t := by
  rintro ⟨hblocked, hflag, hpending, hunattended⟩
  have hmain : .sigint ∈ s.mainMask := by
    rcases mainMask_step hs with hsame | hold'
    · rwa [hsame] at hblocked
    · rw [hold'] at hblocked
      exact absurd hblocked hold
  cases hs with
  | arrive hp sigNum =>
    cases sigNum with
    | sigint => exact hok ⟨hflag, hmain, hunattended⟩
    | sigterm =>
      have hbefore : .sigint ∈ s.pending := by simpa using hpending
      exact h ⟨hmain, hflag, hbefore, hunattended⟩
  | deliver hp sigNum hin hmask =>
    exact h ⟨hmain, hflag, Finset.mem_of_mem_erase hpending,
      unattended_congr hunattended (List.cons_ne_nil _ _) rfl⟩
  | handleSigint hh =>
    exact h ⟨hmain, hflag, hpending, unattended_congr hunattended (List.cons_ne_nil _ _) rfl⟩
  | handleSigterm hh =>
    exact hok _ _ hh
      ⟨hpending, hmain, unattended_congr hunattended (List.cons_ne_nil _ _) rfl⟩
  | sigreturn hh =>
    rcases unattended_sigreturn hunattended rfl with hp | hp
    · exact h ⟨hmain, hflag, hpending, .inl hp⟩
    · exact h ⟨hmain, hflag, hpending, .inr (.inr hp)⟩
  | pause hh hp => exact h ⟨hmain, hflag, hpending, .inl hp⟩
  | test hh hp =>
    have hflag' : s.unblockSigInt = true := hflag
    simp [Unattended, Suspended, hflag'] at hunattended
  | sigpending hh hp =>
    have hpending' : .sigint ∈ s.pending := hpending
    simp [Unattended, Suspended, hpending'] at hunattended
  | @sigismember set hh hp =>
    by_cases hset : .sigint ∈ set
    · simp [Unattended, Suspended, hset] at hunattended
    · exact h ⟨hmain, hflag, hpending, .inr (.inr ⟨set, hp, hset⟩)⟩
  | sigprocmask hh hp =>
    rw [mainMask_nil ?_] at hblocked
    · exact hold hblocked
    · exact hh
  | fail hh hp => simp [Unattended, Suspended] at hunattended

theorem Doomed.stuck (h : Doomed s) (hs : Suspended s) : Stuck s := by
  have hblocked := h.blocked
  rw [mainMask_nil hs.2] at hblocked
  exact ⟨hs, h.flag, h.pending, hblocked⟩

theorem Stuck.doomed (h : Stuck s) : Doomed s := by
  refine ⟨?_, h.flag, h.pending, .inr (.inl h.suspended)⟩
  rw [mainMask_nil h.suspended.2]
  exact h.blocked

/-- Nothing saves `main` before it is stuck. -/
theorem doomed_step (hmasked : Masked s) (hs : Process.Step oldSigMask s a t) (h : Doomed s)
    (hnot : ¬ Stuck s) : Doomed t := by
  have hpoint : s.point = .pause ∨ ∃ set, s.point = .sigismember set ∧ .sigint ∉ set := by
    rcases h.unattended with hp | hsuspended | hp
    · exact .inl hp
    · exact absurd (h.stuck hsuspended) hnot
    · exact .inr hp
  have hstays (hp : t.point = s.point) : Unattended t := by
    rcases hpoint with hp' | ⟨set, hp', hset⟩
    · exact .inl (hp.trans hp')
    · exact .inr (.inr ⟨set, hp.trans hp', hset⟩)
  have hmain (hne : t.mainMask = s.mainMask) : .sigint ∈ t.mainMask := by
    rw [hne]
    exact h.blocked
  obtain ⟨hblocked, hflag, hpending, -⟩ := h
  cases hs with
  | arrive hp sigNum => exact ⟨hblocked, hflag, Finset.mem_insert_of_mem hpending, hstays rfl⟩
  | deliver hp sigNum hin hmask =>
    have hne : .sigint ≠ sigNum := by
      rintro rfl
      exact hmask (hmasked hblocked).1
    exact ⟨hblocked, hflag, Finset.mem_erase.mpr ⟨hne, hpending⟩, hstays rfl⟩
  | handleSigint hh =>
    exact ⟨hmain (mainMask_cons hh).symm, hflag, hpending, hstays rfl⟩
  | handleSigterm hh =>
    exact ⟨hmain (mainMask_cons hh).symm, rfl, hpending, hstays rfl⟩
  | sigreturn hh =>
    refine ⟨hmain (mainMask_cons hh).symm, hflag, hpending, hstays (if_neg ?_)⟩
    rintro ⟨-, hp⟩
    simp [hp] at hpoint
  | pause hh hp => exact ⟨hblocked, hflag, hpending, .inr (.inl ⟨rfl, hh⟩)⟩
  | sigismember hh hp =>
    simp only [hp, Point.sigismember.injEq, reduceCtorEq, false_or] at hpoint
    obtain ⟨set, rfl, hset⟩ := hpoint
    exact ⟨hblocked, hflag, hpending, .inl (if_neg hset)⟩
  | test hh hp | sigpending hh hp | sigprocmask hh hp => simp [hp] at hpoint
  | fail hh hp => rcases hp with hp | hp <;> simp [hp] at hpoint

theorem doomed_of_not_timely (hs : Process.Step oldSigMask s a t) (hnot : ¬ Timely s a) :
    Doomed t := by
  cases hs with
  | arrive hp sigNum =>
    cases sigNum with
    | sigint =>
      obtain ⟨hflag, hmain, hunattended⟩ := not_not.mp hnot
      exact ⟨hmain, hflag, Finset.mem_insert_self .., hunattended⟩
    | sigterm => exact absurd trivial hnot
  | handleSigterm hh =>
    simp only [Timely, hh, not_forall, not_not] at hnot
    obtain ⟨_, _, -, hpending, hmain, hunattended⟩ := hnot
    refine ⟨?_, rfl, hpending, unattended_congr hunattended (by simp [hh]) rfl⟩
    rw [mainMask_cons hh] at hmain
    exact hmain
  | handleSigint hh => simp [Timely, hh] at hnot
  | sigreturn hh => simp [Timely, hh] at hnot
  | _ => exact absurd trivial hnot

/-- On the way from a doomed state into `pause` there is a state in which `main` is stuck. -/
theorem stuck_of_doomed (hrun : (process oldSigMask).Run s xs u) (hmasked : Masked s)
    (h : Doomed s) (hu : Suspended u) :
    ∃ ys zs v, xs = ys ++ zs ∧ (process oldSigMask).Run s ys v ∧ Stuck v := by
  induction hrun with
  | refl => exact ⟨[], [], _, rfl, .refl, h.stuck hu⟩
  | @stepL s a t xs u hs htail ih =>
    by_cases hstuck : Stuck s
    · exact ⟨[], a :: xs, s, rfl, .refl, hstuck⟩
    · obtain ⟨ys, zs, v, rfl, hv, hstuck'⟩ :=
        ih (masked_step hs hmasked) (doomed_step hmasked hs h hstuck) hu
      exact ⟨a :: ys, zs, v, rfl, .stepL hs hv, hstuck'⟩

/-- `main` is never stuck as long as the signals come in time; after one that does not, it is stuck
before it waits in `pause` again. -/
theorem not_stuck_iff_timely (hold : .sigint ∉ oldSigMask) :
    (∀ s, ((process oldSigMask).restrict Timely).Reachable s → ¬ Stuck s) ∧
      ∀ s a t, (process oldSigMask).Reachable s → (process oldSigMask).Step s a t →
        ¬ Timely s a → ∀ xs u, (process oldSigMask).Run t xs u → Suspended u →
          ∃ ys zs v, xs = ys ++ zs ∧ (process oldSigMask).Run t ys v ∧ Stuck v := by
  constructor
  · intro s h hstuck
    have hnot : ¬ Doomed s := by
      apply System.reachable_invariant (P := fun s => ¬ Doomed s) ?_ ?_ h
      · rintro s hi ⟨-, -, hpending, -⟩
        exact hold (hi.pending hpending)
      · rintro s a t ⟨hok, hs⟩ hnot
        exact not_doomed_step hold hs hok hnot
    exact hnot hstuck.doomed
  · intro s a t h hs hnot xs u hrun hu
    have hmasked := masked_step hs (masked_reachable h)
    exact stuck_of_doomed hrun hmasked (doomed_of_not_timely hs hnot) hu

theorem step_timely (hs : Process.Step oldSigMask s a t) (hok : Timely s a) :
    ((process oldSigMask).restrict Timely).Step s a t := ⟨hok, hs⟩

/-- `SIGINT` arrives before `SIGTERM`, and is let through. -/
theorem not_stuck_iff_timely_sigintFirst :
    ∃ s : Process, ((process ∅).restrict Timely).Reachable s ∧ s.unblockSigInt = true ∧
      s.pending = {.sigint} ∧ s.sigMask = ∅ ∧ ¬ Stuck s := by
  have hr : ∃ s : Process, ((process ∅).restrict Timely).Reachable s ∧
      s.unblockSigInt = true ∧ s.pending = {.sigint} ∧ s.sigMask = ∅ :=
    ⟨_, ⟨.start ∅, _, start_initial ∅,
      .stepL (step_timely (.pause rfl rfl) trivial) <|
      .stepL (step_timely (.arrive (by decide) .sigint) (by simp [Timely, Process.start])) <|
      .stepL (step_timely (.arrive (by decide) .sigterm) trivial) <|
      .stepL (step_timely (.deliver (by decide) .sigterm (by decide) (by decide)) trivial) <|
      .stepL (step_timely (.handleSigterm rfl) (by simp [Timely, Unattended, Suspended])) <|
      .stepL (step_timely (.sigreturn rfl) (by simp [Timely])) <|
      .stepL (step_timely (.test rfl rfl) trivial) <|
      .stepL (step_timely (.sigpending rfl rfl) trivial) <|
      .stepL (step_timely (.sigismember rfl rfl) trivial) <|
      .stepL (step_timely (.sigprocmask rfl rfl) trivial) .refl⟩, rfl, by decide, rfl⟩
  obtain ⟨s, hs, hflag, hpending, hmask⟩ := hr
  exact ⟨s, hs, hflag, hpending, hmask, (not_stuck_iff_timely (by decide)).1 s hs⟩

/-- `SIGTERM` arrives before `SIGINT`, which stays blocked. -/
theorem sigtermFirst_stuck : ¬ ∀ s, (process ∅).Reachable s → ¬ Stuck s := by
  intro hall
  have hr : ∃ s : Process, (process ∅).Reachable s ∧ s.point = .paused ∧ s.handlers = [] ∧
      s.unblockSigInt = true ∧ s.pending = {.sigint} ∧ s.sigMask = {.sigint} :=
    ⟨_, ⟨.start ∅, _, start_initial ∅,
      .stepL (.pause rfl rfl) <|
      .stepL (.arrive (by decide) .sigterm) <|
      .stepL (.deliver (by decide) .sigterm (by decide) (by decide)) <|
      .stepL (.handleSigterm rfl) <|
      .stepL (.sigreturn rfl) <|
      .stepL (.test rfl rfl) <|
      .stepL (.sigpending rfl rfl) <|
      .stepL (.sigismember rfl rfl) <|
      .stepL (.pause rfl (by decide)) <|
      .stepL (.arrive (by decide) .sigint) .refl⟩, rfl, rfl, rfl, by decide, rfl⟩
  obtain ⟨s, hs, hp, hh, hflag, hpending, hmask⟩ := hr
  exact hall s hs ⟨⟨hp, hh⟩, hflag, by simp [hpending], by simp [hmask]⟩

end UnixCodes.SigMask
