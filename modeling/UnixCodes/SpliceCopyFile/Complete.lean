import Mathlib.Algebra.Order.BigOperators.Group.List
import Mathlib.Algebra.Order.Ring.Nat
import UnixCodes.SpliceCopyFile.Model

/-! When `splice_copy_file.c` reports the success of a copy that is complete. -/
namespace UnixCodes.SpliceCopyFile

open Posix Transition

variable {method : Method} {source : List UInt8} {s t : Copy} {a : Action} {n : ℕ}

/-- The bytes that have come in and met a call that moves bytes out. -/
def Copy.taken (s : Copy) : ℕ := (s.turns.map Prod.fst).sum

/-- Each call that moves bytes out has moved all that came in before it. -/
def Copy.Uncut (s : Copy) : Prop := ∀ x ∈ s.turns, x.2 = .ok x.1

/-- The bytes that have come in and still wait to be moved out. -/
def Loop.pending : Loop → ℕ
  | .body n => n
  | _ => 0

/-- The bytes of the source that have come in. -/
def Copy.consumed (s : Copy) : ℕ := s.taken + s.loop.pending

/-- How the two files stand to each other at any time. -/
structure Copying (source : List UInt8) (s : Copy) : Prop where
  le : s.consumed ≤ source.length
  unread : s.unread = source.drop s.consumed
  held : s.loop.pending ≤ s.held.length
  pos : ∀ n, s.loop = .body n → 0 < n
  turns : ∀ x ∈ s.turns, 0 < x.1 ∧ moved x.2 ≤ x.1
  length : s.dst.length = (s.turns.map fun x => moved x.2).sum
  uncut : s.Uncut → s.dst ++ s.held = source.take s.consumed ∧
    s.held.length = s.loop.pending
  success : .success ∈ s.printed → s.loop = .returned

theorem pending_eq_zero {l : Loop} (h : ∀ n, l ≠ .body n) : l.pending = 0 := by
  cases l with
  | body n => exact absurd rfl (h n)
  | _ => rfl

/-- Steps outside the loop move no bytes. -/
theorem copying_congr (h : Copying source s) (hunread : t.unread = s.unread)
    (hheld : t.held = s.held) (hdst : t.dst = s.dst) (hturns : t.turns = s.turns)
    (hs : ∀ n, s.loop ≠ .body n) (ht : ∀ n, t.loop ≠ .body n)
    (hsuccess : .success ∈ t.printed → t.loop = .returned) : Copying source t := by
  have htaken : t.taken = s.taken := by rw [Copy.taken, Copy.taken, hturns]
  have hpending : t.loop.pending = s.loop.pending := by
    rw [pending_eq_zero hs, pending_eq_zero ht]
  have hconsumed : t.consumed = s.consumed := by
    rw [Copy.consumed, Copy.consumed, htaken, hpending]
  refine ⟨?_, ?_, ?_, fun n hn => absurd hn (ht n), ?_, ?_, ?_, hsuccess⟩
  · rw [hconsumed]
    exact h.le
  · rw [hunread, hconsumed]
    exact h.unread
  · rw [hpending, hheld]
    exact h.held
  · rw [hturns]
    exact h.turns
  · rw [hdst, hturns]
    exact h.length
  · intro huncut
    rw [Copy.Uncut, hturns] at huncut
    rw [hdst, hheld, hconsumed, hpending]
    exact h.uncut huncut

/-- Before the loop is left, the success is not printed. -/
theorem not_success {l : Loop} (h : Copying source s) (hl : s.loop = l) (hne : l ≠ .returned) :
    .success ∉ s.printed :=
  fun hmem => hne (hl.symm.trans (h.success hmem))

theorem copying_input (h : Copying source s) (hl : s.loop = .head) (hpos : 0 < n)
    (hunread : n ≤ s.unread.length) :
    Copying source { s.input method n with loop := .body n } := by
  have hpending : s.loop.pending = 0 := by rw [hl]; rfl
  have hconsumed : s.consumed = s.taken := by rw [Copy.consumed, hpending, Nat.add_zero]
  have hrest := h.unread
  rw [hconsumed] at hrest
  have hle : n ≤ source.length - s.taken := by
    rw [hrest, List.length_drop] at hunread
    exact hunread
  have hbound := h.le
  have hfilled : (method.fill s.held (s.unread.take n)).length =
      (if method = .copyFileSplice then s.held.length else 0) + n := by
    cases method with
    | copyFileReadWrite => simp [Method.fill, hunread]
    | copyFileSplice => simp [Method.fill, hunread]
  refine ⟨?_, ?_, ?_, ?_, h.turns, h.length, ?_, ?_⟩
  · change s.taken + n ≤ source.length
    omega
  · change s.unread.drop n = source.drop (s.taken + n)
    rw [hrest, List.drop_drop]
  · change n ≤ (method.fill s.held (s.unread.take n)).length
    omega
  · rintro m ⟨⟩
    exact hpos
  · intro huncut
    change s.dst ++ method.fill s.held (s.unread.take n) = source.take (s.taken + n) ∧
      (method.fill s.held (s.unread.take n)).length = n
    obtain ⟨hcontent, hnone⟩ := h.uncut huncut
    have hempty : s.held = [] := List.eq_nil_of_length_eq_zero (hnone.trans hpending)
    rw [hempty, List.append_nil, hconsumed] at hcontent
    have hbuf : method.fill s.held (s.unread.take n) = s.unread.take n := by
      rw [hempty]
      cases method <;> rfl
    rw [hbuf, hcontent, hrest, List.take_add]
    refine ⟨rfl, ?_⟩
    simp only [List.length_take, List.length_drop]
    omega
  · have hnot := not_success h hl (by simp)
    exact fun hmem => absurd hmem hnot

theorem copying_output {r : Moved} (h : Copying source s) (hl : s.loop = .body n)
    (hle : moved r ≤ n) : Copying source { s.output n r with loop := .head } := by
  have hpending : s.loop.pending = n := by rw [hl]; rfl
  have hconsumed : s.consumed = s.taken + n := by rw [Copy.consumed, hpending]
  have htaken : Copy.consumed { s.output n r with loop := .head } = s.consumed := by
    rw [hconsumed]
    simp [Copy.consumed, Copy.taken, Copy.output, Loop.pending]
  have hheld := h.held
  rw [hpending] at hheld
  refine ⟨?_, ?_, Nat.zero_le _, fun m hm => Loop.noConfusion hm, ?_, ?_, ?_, ?_⟩
  · rw [htaken]
    exact h.le
  · rw [htaken]
    exact h.unread
  · change ∀ x ∈ s.turns ++ [(n, r)], 0 < x.1 ∧ moved x.2 ≤ x.1
    rw [List.forall_mem_append, List.forall_mem_singleton]
    exact ⟨h.turns, h.pos n hl, hle⟩
  · have hlen := h.length
    simp only [Copy.output, List.length_append, List.length_take, List.map_append,
      List.sum_append, List.map_cons, List.map_nil, List.sum_singleton]
    omega
  · intro huncut
    change ∀ x ∈ s.turns ++ [(n, r)], x.2 = .ok x.1 at huncut
    rw [List.forall_mem_append, List.forall_mem_singleton] at huncut
    obtain ⟨hbefore, hall⟩ := huncut
    have hmoved : moved r = n := by
      rw [show r = .ok n from hall]
      rfl
    obtain ⟨hcontent, hlen⟩ := h.uncut hbefore
    rw [htaken, ← hcontent]
    change (s.dst ++ s.held.take (moved r)) ++ s.held.drop (moved r) = s.dst ++ s.held ∧
      (s.held.drop (moved r)).length = 0
    refine ⟨?_, ?_⟩
    · rw [List.append_assoc, List.take_append_drop]
    · rw [List.length_drop]
      omega
  · have hnot := not_success h hl (by simp)
    exact fun hmem => absurd hmem hnot

theorem copying_step (hs : Copy.Step method s a t) (h : Copying source s) : Copying source t := by
  cases hs with
  | openF1Error hl e =>
    have hnot := not_success h hl (by simp)
    exact copying_congr h rfl rfl rfl rfl (by simp [hl]) (by simp) (by simp [Copy.print, hnot])
  | openF1 hl =>
    have hnot := not_success h hl (by simp)
    exact copying_congr h rfl rfl rfl rfl (by simp [hl]) (by simp) (by simp [Copy.print, hnot])
  | openF2Error hl e =>
    have hnot := not_success h hl (by simp)
    exact copying_congr h rfl rfl rfl rfl (by simp [hl]) (by simp) (by simp [Copy.print, hnot])
  | openF2 hl =>
    have hnot := not_success h hl (by simp)
    refine copying_congr h rfl rfl rfl rfl (by simp [hl]) ?_ fun hmem => absurd hmem hnot
    intro n
    dsimp only
    split <;> simp
  | pipeError hl e =>
    have hnot := not_success h hl (by simp)
    exact copying_congr h rfl rfl rfl rfl (by simp [hl]) (by simp) (by simp [Copy.print, hnot])
  | pipe hl =>
    have hnot := not_success h hl (by simp)
    exact copying_congr h rfl rfl rfl rfl (by simp [hl]) (by simp) fun hmem => absurd hmem hnot
  | input hl n hpos hle hunread => exact copying_input h hl hpos hunread
  | inputEnd hl =>
    exact copying_congr h rfl rfl rfl rfl (by simp [hl]) (by simp [Copy.finish]) fun _ => rfl
  | inputError hl e =>
    exact copying_congr h rfl rfl rfl rfl (by simp [hl]) (by simp [Copy.finish]) fun _ => rfl
  | output hl r hle => exact copying_output h hl hle

theorem copying_start (source : List UInt8) : Copying source (.start source) := by
  refine ⟨Nat.zero_le _, rfl, le_rfl, fun n hn => Loop.noConfusion hn, ?_, rfl,
    fun _ => ⟨rfl, rfl⟩, ?_⟩
  · simp [Copy.start]
  · simp [Copy.start]

theorem copying_reachable (h : (copyFile method source).Reachable s) : Copying source s := by
  apply System.reachable_invariant ?_ ?_ h
  · rintro s rfl
    exact copying_start source
  · intro s a t hs hcopying
    exact copying_step hs hcopying

theorem ok_of_moved {r : Moved} (hpos : 0 < n) (h : moved r = n) : r = .ok n := by
  cases r with
  | error e =>
    have hzero : moved (.error e) = 0 := rfl
    omega
  | ok m =>
    have hm : moved (.ok m) = m := rfl
    rw [← h, hm]

/-- What has been moved out is all that came in only if it is so in every turn. -/
theorem uncut_of_sum {turns : List (ℕ × Moved)}
    (hturns : ∀ x ∈ turns, 0 < x.1 ∧ moved x.2 ≤ x.1)
    (hsum : (turns.map Prod.fst).sum ≤ (turns.map fun x => moved x.2).sum) :
    ∀ x ∈ turns, x.2 = .ok x.1 := by
  induction turns with
  | nil => simp
  | cons x xs ih =>
    rw [List.forall_mem_cons] at hturns ⊢
    simp only [List.map_cons, List.sum_cons] at hsum
    have hrest : (xs.map fun x => moved x.2).sum ≤ (xs.map Prod.fst).sum :=
      List.sum_le_sum fun y hy => (hturns.2 y hy).2
    obtain ⟨⟨hpos, hle⟩, hrest'⟩ := hturns
    refine ⟨?_, ih hrest' (by omega)⟩
    exact ok_of_moved hpos (by omega)

/-- The success that is printed is true if and only if all of the source has come in and each call
that moves bytes out has moved all of them. -/
theorem success_iff_uncut (h : (copyFile method source).Reachable s)
    (hsuccess : .success ∈ s.printed) :
    s.dst = source ↔
      (s.turns.map Prod.fst).sum = source.length ∧ ∀ x ∈ s.turns, x.2 = .ok x.1 := by
  have hcopying := copying_reachable h
  have hpending : s.loop.pending = 0 := by rw [hcopying.success hsuccess]; rfl
  have hconsumed : s.consumed = (s.turns.map Prod.fst).sum := by
    rw [Copy.consumed, hpending, Nat.add_zero, Copy.taken]
  constructor
  · intro hdst
    have hle := hcopying.le
    have hlen := hcopying.length
    rw [hconsumed] at hle
    rw [hdst] at hlen
    have huncut := uncut_of_sum hcopying.turns (hle.trans hlen.le)
    refine ⟨?_, huncut⟩
    obtain ⟨hcontent, hnone⟩ := hcopying.uncut huncut
    have hlength := congrArg List.length hcontent
    rw [List.length_append, hnone, hpending, hconsumed, List.length_take, hdst] at hlength
    omega
  · rintro ⟨hall, huncut⟩
    obtain ⟨hcontent, hnone⟩ := hcopying.uncut huncut
    have hempty : s.held = [] := List.eq_nil_of_length_eq_zero (hnone.trans hpending)
    rw [hempty, List.append_nil, hconsumed, hall, List.take_length] at hcontent
    exact hcontent

/-- Three bytes are read in two turns. -/
theorem success_iff_uncut_twoTurns :
    ∃ s : Copy, (copyFile .copyFileSplice [71, 72, 73]).Reachable s ∧ .success ∈ s.printed ∧
      s.dst = [71, 72, 73] ∧ (s.dst = [71, 72, 73] ↔
      (s.turns.map Prod.fst).sum = [71, 72, 73].length ∧ ∀ x ∈ s.turns, x.2 = .ok x.1) := by
  have hr : ∃ s : Copy, (copyFile .copyFileSplice [71, 72, 73]).Reachable s ∧
      .success ∈ s.printed ∧ s.dst = [71, 72, 73] :=
    ⟨_, ⟨_, _, rfl,
      .stepL (.openF1 rfl) <|
      .stepL (.openF2 rfl) <|
      .stepL (.pipe rfl) <|
      .stepL (.input rfl 2 (by decide) (by decide) (by decide)) <|
      .stepL (.output rfl (.ok 2) (by decide)) <|
      .stepL (.input rfl 1 (by decide) (by decide) (by decide)) <|
      .stepL (.output rfl (.ok 1) (by decide)) <|
      .stepL (.inputEnd rfl) .refl⟩, by decide, rfl⟩
  obtain ⟨s, hs, hsuccess, hdst⟩ := hr
  exact ⟨s, hs, hsuccess, hdst, success_iff_uncut hs hsuccess⟩

/-- The first `read` fails. -/
theorem error_reports_success :
    ¬ ∀ (method : Method) (source : List UInt8) (s : Copy),
      (copyFile method source).Reachable s → .success ∈ s.printed → s.dst = source := by
  intro hall
  have hr : ∃ s : Copy, (copyFile .copyFileReadWrite [71]).Reachable s ∧ .success ∈ s.printed ∧
      s.dst = [] :=
    ⟨_, ⟨_, _, rfl,
      .stepL (.openF1 rfl) <|
      .stepL (.openF2 rfl) <|
      .stepL (.inputError rfl EIO) .refl⟩, by decide, rfl⟩
  obtain ⟨s, hs, hsuccess, hdst⟩ := hr
  have heq := hall _ _ s hs hsuccess
  rw [hdst] at heq
  cases heq

end UnixCodes.SpliceCopyFile
