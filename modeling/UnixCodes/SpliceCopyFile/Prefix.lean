import UnixCodes.SpliceCopyFile.Complete

/-! The splice copy moves the bytes of the source in their order, however short a transfer is. -/
namespace UnixCodes.SpliceCopyFile

open Posix Transition

variable {source : List UInt8} {s t : Copy} {a : Action}

/-- No byte is lost or moved out of its order: each is in the destination, in the pipe or unread. -/
def Copy.Whole (source : List UInt8) (s : Copy) : Prop := s.dst ++ s.held ++ s.unread = source

/-- What comes in joins the pipe at its end, and what goes out leaves it at its front. -/
theorem whole_step (hs : Copy.Step .copyFileSplice s a t) (h : s.Whole source) :
    t.Whole source := by
  cases hs with
  | input hl n hpos hle hunread =>
    change s.dst ++ (s.held ++ s.unread.take n) ++ s.unread.drop n = source
    rw [List.append_assoc, List.append_assoc, List.take_append_drop, ← List.append_assoc]
    exact h
  | output hl r hle =>
    change s.dst ++ s.held.take (moved r) ++ s.held.drop (moved r) ++ s.unread = source
    rw [List.append_assoc s.dst, List.take_append_drop]
    exact h
  | openF1Error | openF1 | openF2Error | openF2 | pipeError | pipe | inputEnd | inputError =>
    exact h

theorem whole_reachable (h : (copyFile .copyFileSplice source).Reachable s) : s.Whole source := by
  apply System.reachable_invariant ?_ ?_ h
  · rintro s rfl
    rfl
  · intro s a t hs hwhole
    exact whole_step hs hwhole

/-- At the head of the loop the destination and the pipe hold what has been consumed of the source,
and at any time the destination is a prefix of the source. -/
theorem destination_prefix (h : (copyFile .copyFileSplice source).Reachable s) :
    (s.loop = .head → s.dst ++ s.held = source.take s.taken) ∧ s.dst <+: source := by
  have hwhole := whole_reachable h
  have hcopying := copying_reachable h
  constructor
  · intro hl
    have hconsumed : s.consumed = s.taken := by
      rw [Copy.consumed, hl]
      rfl
    have hunread := hcopying.unread
    rw [hconsumed] at hunread
    rw [Copy.Whole, hunread] at hwhole
    exact List.append_cancel_right (hwhole.trans (List.take_append_drop s.taken source).symm)
  · refine ⟨s.held ++ s.unread, ?_⟩
    rw [← List.append_assoc]
    exact hwhole

/-- Two transfers of three bytes are short by one. -/
theorem destination_prefix_short : ∃ s : Copy,
    (copyFile .copyFileSplice [71, 72, 73]).Reachable s ∧ s.loop = .head ∧ s.held = [73] ∧
    s.dst ++ s.held = [71, 72, 73].take s.taken ∧ s.dst <+: [71, 72, 73] := by
  have hr : ∃ s : Copy, (copyFile .copyFileSplice [71, 72, 73]).Reachable s ∧ s.loop = .head ∧
      s.held = [73] :=
    ⟨_, ⟨_, _, rfl,
      .stepL (.openF1 rfl) <|
      .stepL (.openF2 rfl) <|
      .stepL (.pipe rfl) <|
      .stepL (.input rfl 2 (by decide) (by decide) (by decide)) <|
      .stepL (.output rfl (.ok 1) (by decide)) <|
      .stepL (.input rfl 1 (by decide) (by decide) (by decide)) <|
      .stepL (.output rfl (.ok 1) (by decide)) .refl⟩, rfl, rfl⟩
  obtain ⟨s, hs, hl, hheld⟩ := hr
  obtain ⟨hhead, hprefix⟩ := destination_prefix hs
  exact ⟨s, hs, hl, hheld, hhead hl, hprefix⟩

end UnixCodes.SpliceCopyFile
