import UnixCodes.Lib.Precedence
import UnixCodes.SigMask.Model

/-! `SIGINT` is not handled before `SIGTERM` in `sig_mask.c`. -/
namespace UnixCodes.SigMask

open Transition

variable {oldSigMask : Finset Signal} {s t : Process} {a : Action}

/-- Before each entry of the branch for `SIGINT`, a handler of `SIGTERM` has returned. -/
def Deferred (log : List Signal) : Prop := Precedes (· = .sigterm) (· = .sigint) log

/-- Until a handler of `SIGTERM` has returned `SIGINT` stays blocked: no mask that is saved lets it
through, and the flag is set only while that handler runs. -/
structure Holding (s : Process) : Prop where
  sigMask : .sigint ∈ s.sigMask
  handlers : ∀ f ∈ s.handlers, .sigint ∈ f.saved ∧ f.sigNum = .sigterm
  flag : s.unblockSigInt = true → s.handlers ≠ []
  point : s.point = .pause ∨ s.point = .paused ∨ s.point = .test

theorem holding_of_main {p : Point} (h : Holding s)
    (hp : p = .pause ∨ p = .paused ∨ p = .test) : Holding { s with point := p } :=
  ⟨h.sigMask, h.handlers, h.flag, hp⟩

/-- The handler that runs is one of `SIGTERM`. -/
theorem Holding.running {f : Handler} {fs : List Handler} (h : Holding s)
    (hh : s.handlers = f :: fs) : f.sigNum = .sigterm := by
  have hall := h.handlers
  rw [hh, List.forall_mem_cons] at hall
  exact hall.1.2

theorem holding_step (hs : Process.Step oldSigMask s a t) (h : Holding s) :
    .sigterm ∈ t.handled ∨ Holding t := by
  have hidle (hh : s.handlers = []) : s.unblockSigInt = false := by
    by_contra hflag
    exact h.flag (by simpa using hflag) hh
  cases hs with
  | arrive hp sigNum => exact .inr ⟨h.sigMask, h.handlers, h.flag, h.point⟩
  | deliver hp sigNum hpending hmask =>
    right
    refine ⟨Finset.mem_insert_of_mem h.sigMask, ?_, fun _ => List.cons_ne_nil _ _, h.point⟩
    rw [List.forall_mem_cons]
    refine ⟨⟨h.sigMask, ?_⟩, h.handlers⟩
    cases sigNum with
    | sigint => exact absurd h.sigMask hmask
    | sigterm => rfl
  | handleSigint hh =>
    cases h.running hh
  | handleSigterm hh =>
    right
    have hall := h.handlers
    rw [hh, List.forall_mem_cons] at hall
    refine ⟨h.sigMask, ?_, fun _ => List.cons_ne_nil _ _, h.point⟩
    rw [List.forall_mem_cons]
    exact hall
  | @sigreturn sigNum saved hs hh =>
    left
    obtain rfl : sigNum = .sigterm := h.running hh
    simp
  | pause hh hp => exact .inr (holding_of_main h (by simp))
  | test hh hp => exact .inr (holding_of_main h (by simp [hidle hh]))
  | sigpending hh hp | sigismember hh hp | sigprocmask hh hp =>
    have hpoint := h.point
    simp [hp] at hpoint
  | fail hh hp =>
    have hpoint := h.point
    rcases hp with hp | hp <;> simp [hp] at hpoint

/-- The log is in order, and goes on being so. -/
structure Sound (s : Process) : Prop where
  deferred : Deferred s.handled
  holding : .sigterm ∈ s.handled ∨ Holding s

theorem handled_mono (hs : Process.Step oldSigMask s a t) (h : .sigterm ∈ s.handled) :
    .sigterm ∈ t.handled := by
  cases hs with
  | handleSigint hh => exact List.mem_append_left _ h
  | sigreturn hh =>
    dsimp only
    split
    · exact List.mem_append_left _ h
    · exact h
  | _ => exact h

theorem sound_step (hs : Process.Step oldSigMask s a t) (h : Sound s) : Sound t := by
  constructor
  · cases hs with
    | handleSigint hh =>
      refine h.deferred.concat fun _ => ?_
      rcases h.holding with hterm | hholding
      · exact ⟨_, hterm, rfl⟩
      · cases hholding.running hh
    | sigreturn hh =>
      dsimp only
      split
      · exact h.deferred.concat_of_not (by simp)
      · exact h.deferred
    | _ => exact h.deferred
  · rcases h.holding with hterm | hholding
    · exact .inl (handled_mono hs hterm)
    · exact holding_step hs hholding

theorem sound_initial (h : s.Initial oldSigMask) : Sound s := by
  have hhandled := h.handled
  cases hflag : s.unblockSigInt with
  | true =>
    rw [hflag, if_pos rfl] at hhandled
    refine ⟨?_, .inl (by simp [hhandled])⟩
    rw [hhandled, ← List.nil_append [Signal.sigterm]]
    exact Precedes.nil.concat_of_not (by simp)
  | false =>
    rw [hflag] at hhandled
    refine ⟨by rw [hhandled]; exact Precedes.nil, .inr ⟨?_, ?_, ?_, .inl h.point⟩⟩
    · rw [h.sigMask]
      exact Finset.mem_insert_self ..
    · simp [h.handlers]
    · simp [hflag]

/-- In every run the branch for `SIGINT` is entered only after a `SIGTERM` has been handled. -/
theorem sigint_deferred (h : (process oldSigMask).Reachable s) :
    ∀ before after, s.handled = before ++ .sigint :: after → .sigterm ∈ before := by
  intro before after heq
  have hsound : Sound s := by
    apply System.reachable_invariant ?_ ?_ h
    · intro s hi
      exact sound_initial hi
    · intro s a t hs hsound
      exact sound_step hs hsound
  obtain ⟨y, hy, rfl⟩ := hsound.deferred before .sigint after heq rfl
  exact hy

/-- Both signals arrive in a `pause`, `SIGINT` first. -/
theorem sigint_deferred_both :
    ∃ s : Process, (process ∅).Reachable s ∧ s.handled = [.sigterm, .sigint] ∧
      ∀ before after, s.handled = before ++ .sigint :: after → .sigterm ∈ before := by
  have hr : ∃ s : Process, (process ∅).Reachable s ∧ s.handled = [.sigterm, .sigint] :=
    ⟨_, ⟨.start ∅, _, start_initial ∅,
      .stepL (.pause rfl rfl) <|
      .stepL (.arrive (by decide) .sigint) <|
      .stepL (.arrive (by decide) .sigterm) <|
      .stepL (.deliver (by decide) .sigterm (by decide) (by decide)) <|
      .stepL (.handleSigterm rfl) <|
      .stepL (.sigreturn rfl) <|
      .stepL (.test rfl rfl) <|
      .stepL (.sigpending rfl rfl) <|
      .stepL (.sigismember rfl rfl) <|
      .stepL (.sigprocmask rfl rfl) <|
      .stepL (.deliver (by decide) .sigint (by decide) (by decide)) <|
      .stepL (.handleSigint rfl) .refl⟩, rfl⟩
  obtain ⟨s, hs, hhandled⟩ := hr
  exact ⟨s, hs, hhandled, sigint_deferred hs⟩

end UnixCodes.SigMask
