import UnixCodes.NoBlockingTcpClient.Session

/-! The kernel answers every call that the loop makes, so that no iteration is held up. -/
namespace UnixCodes.NoBlockingTcpClient

open Posix ByteStream Transition

variable {c d : Client} {k : Answers} {r : PollSet} {b : Bool} {l : Left} {x y : Call} {n : ℕ}
  {calls xs ys zs : List Call} {z : Capacity} {s t : Outside} {e : Event} {es : List Event}
  {input : List UInt8}

/-- What is answered to one iteration that begins at `s`, while the others do nothing. -/
def Outside.answers (z : Capacity) (s : Outside) (r : PollSet) : Answers where
  poll := .ready r
  soError := 0
  readStdin n := .bytes (s.input.take n) (List.length_take_le _ _)
  readFd n :=
    if s.incoming = [] ∧ s.closed = false then .error EWOULDBLOCK
    else .bytes (s.incoming.take n) (List.length_take_le _ _)
  writeFd n :=
    if z.outgoing ≤ s.outgoing.length then .error EWOULDBLOCK
    else .count (min n (z.outgoing - s.outgoing.length)) (min_le_left _ _)
  writeStdout n :=
    if z.stdout ≤ s.stdout.length then .error EWOULDBLOCK
    else .count (min n (z.stdout - s.stdout.length)) (min_le_left _ _)

theorem answers_working : (s.answers z r).Working := by
  refine ⟨?_, rfl, ?_, ?_⟩
  · intro e he
    cases he
  · intro n e he
    dsimp only [Outside.answers] at he
    split at he <;> cases he
    rfl
  · intro n e he
    dsimp only [Outside.answers] at he
    split at he <;> cases he
    rfl

/-- The calls of a stage have been answered, on the way from `s` to `t`. -/
def Answered (z : Capacity) (s : Outside) (c d : Client) (t : Outside) : Prop :=
  ∃ es, (outside z).Run s es t ∧ d.calls = c.calls ++ made es

theorem Answered.refl (h : d.calls = c.calls) : Answered z s c d s :=
  ⟨[], .refl, by simp [made, h]⟩

theorem Answered.call (hs : Outside.Step z s (.call x) t) (h : d.calls = c.calls ++ [x]) :
    Answered z s c d t := ⟨[.call x], .stepL hs .refl, by simp [made, Event.made, h]⟩

theorem Answered.trans {c' : Client} {u : Outside} (h : Answered z s c d t)
    (h' : Answered z t d c' u) : Answered z s c c' u := by
  obtain ⟨es, hr, hd⟩ := h
  obtain ⟨es', hr', hd'⟩ := h'
  exact ⟨es ++ es', hr.append hr', by simp [made, hd, hd']⟩

/-- The file behind stdin does not keep the client waiting. -/
theorem stdinReady_answered :
    ∃ d b t, stdinReady c (s.answers z r) r = .ok (d, b) ∧ Answered z s c d t ∧
      t.incoming = s.incoming ∧ t.closed = s.closed ∧ t.outgoing = s.outgoing ∧
      t.stdout = s.stdout := by
  have hstep (n : ℕ) (bs : List UInt8) (hbs : s.input.take n = bs) :
      Outside.Step z s (.call (.read .stdin n (some bs))) { s with input := s.input.drop n } := by
    subst hbs
    exact .readStdin (List.take_append_drop _ _).symm (List.length_take_le _ _)
      List.take_eq_nil_iff.mp
  unfold stdinReady
  split
  · dsimp only [Outside.answers]
    split
    · rename_i hbs
      cases hbs
    · rename_i hbs
      injection hbs with hbs
      have hread := Answered.call (c := c) (d := { c.log (.read .stdin (tcpRecvBuf - c.toBuf.eptr)
        (some [])) with stdineof := true }) (hstep _ _ hbs) rfl
      split
      · exact ⟨_, _, _, rfl, hread.trans (.call .shutdown rfl), rfl, rfl, rfl, rfl⟩
      · exact ⟨_, _, _, rfl, hread, rfl, rfl, rfl, rfl⟩
    · rename_i hbs
      injection hbs with hbs
      exact ⟨_, _, _, rfl, .call (hstep _ _ hbs) rfl, rfl, rfl, rfl, rfl⟩
  · exact ⟨c, false, s, rfl, .refl rfl, rfl, rfl, rfl, rfl⟩

theorem fdReadable_answered (hin : t.incoming = s.incoming) (hclosed : t.closed = s.closed) :
    ∃ u, Answered z t c (clientOf (fdReadable c (s.answers z r))) u ∧ u.stdout = t.stdout := by
  unfold fdReadable
  dsimp only [Outside.answers]
  by_cases hnone : s.incoming = [] ∧ s.closed = false
  · rw [if_pos hnone]
    exact ⟨t, .call (.readSockBlocked (hin.trans hnone.1) (hclosed.trans hnone.2)) rfl, rfl⟩
  rw [if_neg hnone]
  have hstep (n : ℕ) (bs : List UInt8) (hbs : s.incoming.take n = bs) :
      Outside.Step z t (.call (.read .sock n (some bs)))
        { t with incoming := t.incoming.drop n } := by
    subst hbs
    refine .readSock (hin ▸ (List.take_append_drop _ _).symm) (List.length_take_le _ _) ?_
    intro hnil
    rcases List.take_eq_nil_iff.mp hnil with hn | hn
    · exact .inl hn
    · refine .inr ⟨hin.trans hn, hclosed.trans ?_⟩
      exact Bool.eq_true_of_not_eq_false fun hopen => hnone ⟨hn, hopen⟩
  split
  · rename_i hbs
    cases hbs
  · rename_i hbs
    injection hbs with hbs
    exact ⟨_, .call (hstep _ _ hbs) rfl, rfl⟩
  · rename_i hbs
    injection hbs with hbs
    exact ⟨_, .call (hstep _ _ hbs) rfl, rfl⟩

/-- Whoever still has bytes to send has not ended the stream. -/
theorem fdWritable_answered (hc : HalfClose c) (ht : Ended c.calls t)
    (hout : t.outgoing = s.outgoing) :
    ∃ d u, fdWritable c (s.answers z r) = .ok (d, false) ∧ Answered z t c d u ∧
      u.stdout = t.stdout := by
  unfold fdWritable
  split
  · rename_i hpos
    have hopen : t.shut = false := by
      have hno := hc.never fun hf => absurd hf.2 (by omega)
      exact Bool.eq_false_iff.mpr fun hshut => hno (ht.shut.mp hshut)
    dsimp only [Outside.answers]
    by_cases hfull : z.outgoing ≤ s.outgoing.length
    · rw [if_pos hfull]
      exact ⟨_, t, rfl, .call (.writeSockBlocked (hout ▸ hfull) hopen) rfl, rfl⟩
    rw [if_neg hfull]
    have hwrite := Answered.call (c := c)
      (d := c.log (.write .sock c.toBuf.pending
        (some (min (c.toBuf.eptr - c.toBuf.sptr) (z.outgoing - s.outgoing.length)))))
      (.writeSock (z := z) (s := t) (by omega) (by simp) (by rw [hout]; omega) hopen) rfl
    dsimp only
    split
    · split
      · exact ⟨_, _, rfl, hwrite.trans (.call .shutdown rfl), rfl⟩
      · exact ⟨_, _, rfl, hwrite, rfl⟩
    · exact ⟨_, _, rfl, hwrite, rfl⟩
  · exact ⟨c, t, rfl, .refl rfl, rfl⟩

theorem fdReady_answered (hc : HalfClose c) (ht : Ended c.calls t)
    (hin : t.incoming = s.incoming) (hclosed : t.closed = s.closed)
    (hout : t.outgoing = s.outgoing) :
    ∃ u, Answered z t c (clientOf (fdReady c (s.answers z r) r b)) u ∧ u.stdout = t.stdout := by
  unfold fdReady
  split
  · split
    · exact ⟨t, .refl rfl, rfl⟩
    · split
      · exact fdReadable_answered hin hclosed
      · split
        · obtain ⟨d, u, hd, hu, hstdout⟩ :=
            fdWritable_answered (z := z) (r := r) hc ht hout
          rw [hd]
          exact ⟨u, hu, hstdout⟩
        · exact ⟨t, .refl rfl, rfl⟩
  · exact ⟨t, .refl rfl, rfl⟩

theorem stdoutReady_answered (hout : t.stdout = s.stdout) :
    ∃ u, Answered z t c (headOf (stdoutReady c (s.answers z r) r b)) u := by
  unfold stdoutReady
  split
  · split
    · exact ⟨t, .refl rfl⟩
    · dsimp only [Outside.answers]
      by_cases hfull : z.stdout ≤ s.stdout.length
      · rw [if_pos hfull]
        exact ⟨t, .call (.writeStdoutBlocked (hout ▸ hfull)) rfl⟩
      rw [if_neg hfull]
      have hwrite := Answered.call (c := c)
        (d := c.log (.write .stdout c.frBuf.pending
          (some (min (c.frBuf.eptr - c.frBuf.sptr) (z.stdout - s.stdout.length)))))
        (.writeStdout (z := z) (s := t) (by omega) (by simp) (by rw [hout]; omega)) rfl
      dsimp only
      split <;> exact ⟨_, hwrite⟩
  · exact ⟨t, .refl rfl⟩

theorem iteration_answered (hs : Streams c) (hc : HalfClose c) (hended : Ended c.calls s)
    (hopen : r.stdin.pollin = true → c.stdineof = false) :
    ∃ t, Answered z s c (headOf (iteration c (s.answers z r))) t := by
  obtain ⟨d, b, t, hd, ht, hin, hclosed, hout, hstdout⟩ :=
    stdinReady_answered (c := c) (s := s) (r := r) (z := z)
  have hc' := halfClose_stdinReady (k := s.answers z r) hs hc hopen
  rw [hd] at hc'
  change HalfClose d at hc'
  have hended' : Ended d.calls t := by
    obtain ⟨es, hr, hcalls⟩ := ht
    exact hcalls ▸ ended_run hr hended
  obtain ⟨u, hu, hstdout'⟩ :=
    fdReady_answered (z := z) (r := r) (b := b) hc' hended' hin hclosed hout
  have hpoll : (s.answers z r).poll = .ready r := rfl
  simp only [iteration, hpoll, hd]
  cases ho : fdReady d (s.answers z r) r b with
  | error l =>
    rw [ho] at hu
    exact ⟨u, ht.trans hu⟩
  | ok p =>
    rw [ho] at hu
    obtain ⟨v, hv⟩ := stdoutReady_answered (z := z) (r := r) (c := p.1) (b := p.2)
      (hstdout'.trans hstdout)
    exact ⟨v, ht.trans (hu.trans hv)⟩

end UnixCodes.NoBlockingTcpClient
