import UnixCodes.NoBlockingTcpClient.ByteStreams

/-! The half-close: `shutdown` is called once, after stdin's end of file and the last byte. -/
namespace UnixCodes.NoBlockingTcpClient

open Posix ByteStream Transition

variable {c d : Client} {k : Answers} {r : PollSet} {x : Call} {calls : List Call} {b : Bool}
  {l : Left}

/-- The calls that move bytes from stdin to the socket. -/
def Call.Outward : Call → Prop
  | .read .stdin _ _ | .write .sock _ _ => True
  | _ => False

/-- Before a `shutdown` everything read from stdin has been accepted by the socket; after it there
is neither a second one nor a call that moves bytes from stdin to the socket. -/
def EndsStream (calls : List Call) : Prop :=
  ∀ xs ys, calls = xs ++ .shutdown :: ys → sent .sock xs = received .stdin xs ∧
    Call.shutdown ∉ ys ∧ ∀ y ∈ ys, ¬ y.Outward

/-- End of file has been seen on stdin and nothing is left to send. -/
def Client.Finished (c : Client) : Prop := c.stdineof = true ∧ c.toBuf.sptr = c.toBuf.eptr

structure HalfClose (c : Client) : Prop where
  once : c.Finished → c.calls.count .shutdown = 1
  never : ¬ c.Finished → Call.shutdown ∉ c.calls
  ends : EndsStream c.calls

theorem endsStream_other (h : EndsStream calls) (hx : x ≠ .shutdown)
    (hout : x.Outward → Call.shutdown ∉ calls) : EndsStream (calls ++ [x]) := by
  intro xs ys heq
  rcases List.eq_nil_or_concat' ys with rfl | ⟨ys, y, rfl⟩
  · obtain ⟨-, he⟩ := List.append_inj' heq rfl
    simp [hx] at he
  · rw [← List.cons_append, ← List.append_assoc] at heq
    obtain ⟨hcalls, he⟩ := List.append_inj' heq rfl
    obtain rfl : x = y := by simpa using he
    obtain ⟨hs, hy, hny⟩ := h xs ys hcalls
    refine ⟨hs, ?_, ?_⟩
    · simp [hy, hx.symm]
    · intro z hz hzout
      rcases List.mem_append.mp hz with hz | hz
      · exact hny z hz hzout
      · obtain rfl := List.mem_singleton.mp hz
        exact hout hzout (by simp [hcalls])

theorem endsStream_shutdown (hn : Call.shutdown ∉ calls)
    (hs : sent .sock calls = received .stdin calls) : EndsStream (calls ++ [.shutdown]) := by
  intro xs ys heq
  rcases List.eq_nil_or_concat' ys with rfl | ⟨ys, y, rfl⟩
  · obtain ⟨rfl, -⟩ := List.append_inj' heq rfl
    exact ⟨hs, by simp, by simp⟩
  · rw [← List.cons_append, ← List.append_assoc] at heq
    obtain ⟨hcalls, -⟩ := List.append_inj' heq rfl
    exact (hn (by simp [hcalls])).elim

/-- Calls that are no part of the way from stdin to the socket. -/
theorem HalfClose.log (h : HalfClose c) (hx : x ≠ .shutdown) (hout : ¬ x.Outward) :
    HalfClose (c.log x) := by
  refine ⟨fun hf => ?_, fun hf => ?_, ?_⟩
  · have hone := h.once hf
    simpa [Client.log, hx] using hone
  · have hno := h.never hf
    simpa [Client.log, hx.symm] using hno
  · exact endsStream_other h.ends hx (fun ho => absurd ho hout)

/-- A client that is not finished, whose history has no `shutdown`. -/
theorem HalfClose.early (hf : ¬ c.Finished) (hno : Call.shutdown ∉ c.calls)
    (he : EndsStream c.calls) : HalfClose c :=
  ⟨fun h => absurd h hf, fun _ => hno, he⟩

/-- The `shutdown` that makes a history finished. -/
theorem HalfClose.shutdown (hf : c.Finished) (hno : Call.shutdown ∉ c.calls)
    (hs : sent .sock c.calls = received .stdin c.calls) : HalfClose (c.log .shutdown) := by
  refine ⟨fun _ => ?_, fun h => absurd hf h, endsStream_shutdown hno hs⟩
  have hzero := List.count_eq_zero.mpr hno
  simp [Client.log, hzero]

theorem halfClose_initial (h : Initial c) : HalfClose c := by
  rcases h with rfl | rfl
  all_goals
    refine HalfClose.early ?_ (by simp [Client.start]) (by simp [EndsStream, Client.start])
    rintro ⟨heof, -⟩
    simp [Client.start] at heof

/-- While the client is not finished the stream has not been ended. -/
theorem HalfClose.unfinished (h : HalfClose c) (hf : ¬ c.Finished) (hx : x ≠ .shutdown) :
    Call.shutdown ∉ (c.log x).calls ∧ EndsStream (c.log x).calls := by
  have hno := h.never hf
  exact ⟨by simpa [Client.log, hx.symm] using hno, endsStream_other h.ends hx (fun _ => hno)⟩

/-- `poll` asks for stdin only while it is open, so its end of file is seen once. -/
theorem halfClose_stdinReady (hs : Streams c) (h : HalfClose c)
    (hopen : r.stdin.pollin = true → c.stdineof = false) :
    HalfClose (clientOf (stdinReady c k r)) := by
  have hopen' (hp : r.stdin.pollin = true) : ¬ c.Finished := by
    rintro ⟨heof, -⟩
    simp [hopen hp] at heof
  have hread (hp : r.stdin.pollin = true) (n : ℕ) (got : Option (List UInt8)) :
      Call.shutdown ∉ (c.log (.read .stdin n got)).calls ∧
        EndsStream (c.log (.read .stdin n got)).calls := h.unfinished (hopen' hp) (by simp)
  generalize ho : stdinReady c k r = o
  have heff := ho ▸ stdinReady_effect (c := c) (k := k) (r := r)
  cases heff with
  | idle => exact h
  | blocked hp =>
    obtain ⟨hno, hends⟩ := hread hp (tcpRecvBuf - c.toBuf.eptr) none
    exact .early (hopen' hp) hno hends
  | failed hp =>
    obtain ⟨hno, hends⟩ := hread hp (tcpRecvBuf - c.toBuf.eptr) none
    exact .early (hopen' hp) hno hends
  | eofEmpty hp he =>
    obtain ⟨hno, -⟩ := hread hp (tcpRecvBuf - c.toBuf.eptr) (some [])
    refine HalfClose.shutdown ⟨rfl, he⟩ hno ?_
    have hsent := hs.outward.complete_iff.mpr he
    simpa [Client.log, Call.bytesRead, Call.bytesWritten] using hsent
  | eofPending hp he =>
    obtain ⟨hno, hends⟩ := hread hp (tcpRecvBuf - c.toBuf.eptr) (some [])
    exact .early (fun hf => he hf.2) hno hends
  | data hp bs _ _ =>
    obtain ⟨hno, hends⟩ := hread hp (tcpRecvBuf - c.toBuf.eptr) (some bs)
    refine .early ?_ hno hends
    rintro ⟨heof, -⟩
    exact absurd (heof.symm.trans (hopen hp)) (by simp)

theorem halfClose_fdReady (hs : Streams c) (h : HalfClose c) :
    HalfClose (clientOf (fdReady c k r b)) := by
  have hread (n : ℕ) (got : Option (List UInt8)) : HalfClose (c.log (.read .sock n got)) :=
    h.log (by simp) (by simp [Call.Outward])
  have hwrite (hp : c.toBuf.sptr < c.toBuf.eptr) (n : Option ℕ) :
      Call.shutdown ∉ (c.log (.write .sock c.toBuf.pending n)).calls ∧
        EndsStream (c.log (.write .sock c.toBuf.pending n)).calls :=
    h.unfinished (fun hf => absurd hf.2 hp.ne) (by simp)
  have hblocked (hp : c.toBuf.sptr < c.toBuf.eptr) :
      HalfClose (c.log (.write .sock c.toBuf.pending none)) := by
    obtain ⟨hno, hends⟩ := hwrite hp none
    exact .early (fun hf => absurd hf.2 hp.ne) hno hends
  generalize ho : fdReady c k r b = o
  have heff := ho ▸ fdReady_effect (c := c) (k := k) (r := r) (b := b)
  cases heff with
  | idle => exact h
  | connected => exact ⟨h.once, h.never, h.ends⟩
  | refused => exact h
  | readBlocked => exact hread _ _
  | readFailed => exact hread _ _
  | eof => exact hread _ _
  | data bs _ _ => exact ⟨(hread _ _).once, (hread _ _).never, (hread _ _).ends⟩
  | writeBlocked hp => exact hblocked hp
  | writeFailed hp => exact hblocked hp
  | short hp n hle hne =>
    obtain ⟨hno, hends⟩ := hwrite hp (some n)
    exact .early (fun hf => hne hf.2) hno hends
  | whole hp n hle he hst =>
    obtain ⟨hno, hends⟩ := hwrite hp (some n)
    refine .early ?_ hno hends
    rintro ⟨heof, -⟩
    exact absurd (heof.symm.trans hst) (by simp)
  | wholeEof hp n hle he hst =>
    obtain ⟨hno, -⟩ := hwrite hp (some n)
    exact .shutdown ⟨hst, rfl⟩ hno ((hs.written hle).outward.complete_iff.mpr he)

theorem halfClose_stdoutReady (h : HalfClose c) : HalfClose (headOf (stdoutReady c k r b)) := by
  have hwrite (n : Option ℕ) : HalfClose (c.log (.write .stdout c.frBuf.pending n)) :=
    h.log (by simp) (by simp [Call.Outward])
  generalize ho : stdoutReady c k r b = o
  have heff := ho ▸ stdoutReady_effect (c := c) (k := k) (r := r) (b := b)
  cases heff with
  | idle => exact h
  | blocked => exact hwrite _
  | failed => exact hwrite _
  | short => exact ⟨(hwrite _).once, (hwrite _).never, (hwrite _).ends⟩
  | whole => exact ⟨(hwrite _).once, (hwrite _).never, (hwrite _).ends⟩

theorem halfClose_iteration (hs : Streams c) (h : HalfClose c) (hk : Requested c k) :
    HalfClose (headOf (iteration c k)) := by
  apply iteration_invariant hs ?_ ?_ ?_ h
  · intro r hr
    exact halfClose_stdinReady hs h fun hp => (stdin_asked hk hr hp).1
  · intro r d b _ _ hs' h'
    exact halfClose_fdReady hs' h'
  · intro c r b h'
    exact halfClose_stdoutReady h'

theorem halfClose_reachable (h : (system.restrict Requested).Reachable c) : HalfClose c :=
  requested_invariant (fun _ => halfClose_initial)
    (fun _ _ hs hk hc => halfClose_iteration hs hc hk) h

/-- `shutdown` has been called once if the client is finished and never if it is not; and wherever
the loop stands or is left, it came after the last byte from stdin and nothing was sent after it. -/
theorem half_close (h : (system.restrict Requested).Reachable c) :
    c.calls.count .shutdown =
        (if c.stdineof = true ∧ c.toBuf.sptr = c.toBuf.eptr then 1 else 0) ∧
      EndsStream c.calls ∧
      ∀ k l, Requested c k → iteration c k = .error l → EndsStream l.client.calls := by
  have hc := halfClose_reachable h
  refine ⟨?_, hc.ends, ?_⟩
  · split
    · rename_i hf
      exact hc.once hf
    · rename_i hf
      exact List.count_eq_zero.mpr (hc.never hf)
  · intro k l hk hl
    have hit := halfClose_iteration (streams_reachable (System.restrict_reachable h)) hc hk
    rw [hl] at hit
    exact hit.ends

/-- stdin delivers `hi` and ends with one byte still to send; then the socket takes it. -/
theorem half_close_drain :
    ∃ c : Client, (system.restrict Requested).Reachable c ∧ c.stdineof = true ∧
      c.toBuf.sptr = c.toBuf.eptr ∧ received .stdin c.calls = [104, 105] ∧ c.calls.count .shutdown =
        (if c.stdineof = true ∧ c.toBuf.sptr = c.toBuf.eptr then 1 else 0) := by
  let k₁ : Answers :=
    { Answers.quiet (.ready ⟨⟨true, false⟩, .none, .none⟩) with
      readStdin := fun n => if h : 2 ≤ n then .bytes [104, 105] h else .error EWOULDBLOCK
      writeFd := fun n => if h : 1 ≤ n then .count 1 h else .error EWOULDBLOCK }
  let k₂ : Answers :=
    { Answers.quiet (.ready ⟨⟨true, false⟩, ⟨false, true⟩, .none⟩) with
      readStdin := fun n => .bytes [] (Nat.zero_le n)
      writeFd := fun n => .count n le_rfl }
  have hr : ∃ c : Client, (system.restrict Requested).Reachable c ∧ c.stdineof = true ∧
      c.toBuf.sptr = c.toBuf.eptr ∧ received .stdin c.calls = [104, 105] := by
    refine ⟨_, ⟨.start 0, [k₁, k₂], .inl rfl, .stepL ⟨?_, rfl⟩ (.stepL ⟨?_, rfl⟩ .refl)⟩, rfl, rfl,
      rfl⟩
    · rintro r ⟨⟩
      decide
    · rintro r ⟨⟩
      decide
  obtain ⟨c, hc, heof, he, hrecv⟩ := hr
  exact ⟨c, hc, heof, he, hrecv, (half_close hc).1⟩

end UnixCodes.NoBlockingTcpClient
