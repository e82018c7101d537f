import UnixCodes.NoBlockingTcpClient.Model

/-! All that each stage of the loop body can do, said once. -/
namespace UnixCodes.NoBlockingTcpClient

open Posix ByteStream

variable {c : Client} {k : Answers} {r : PollSet} {b : Bool}

/-- `n` is the room left in the send buffer. -/
inductive StdinEffect (c : Client) (r : PollSet) (n : ℕ) : Except Left (Client × Bool) → Prop
  | idle : StdinEffect c r n (.ok (c, false))
  | blocked (hp : r.stdin.pollin = true) :
      StdinEffect c r n (.ok (c.log (.read .stdin n none), false))
  | failed (hp : r.stdin.pollin = true) :
      StdinEffect c r n (.error ⟨.stdinReadError, c.log (.read .stdin n none)⟩)
  | eofEmpty (hp : r.stdin.pollin = true) (he : c.toBuf.sptr = c.toBuf.eptr) :
      StdinEffect c r n
        (.ok (({ c.log (.read .stdin n (some [])) with stdineof := true }).log .shutdown, false))
  | eofPending (hp : r.stdin.pollin = true) (he : c.toBuf.sptr ≠ c.toBuf.eptr) :
      StdinEffect c r n (.ok ({ c.log (.read .stdin n (some [])) with stdineof := true }, false))
  | data (hp : r.stdin.pollin = true) (bs : List UInt8) (hne : bs ≠ []) (hle : bs.length ≤ n) :
      StdinEffect c r n
        (.ok ({ c.log (.read .stdin n (some bs)) with toBuf := c.toBuf.fill bs }, true))

theorem stdinReady_effect : StdinEffect c r (tcpRecvBuf - c.toBuf.eptr) (stdinReady c k r) := by
  unfold stdinReady
  split
  · rename_i hp
    split
    · dsimp only
      split
      · exact .failed hp
      · exact .blocked hp
    · dsimp only
      split
      · rename_i he
        exact .eofEmpty hp he
      · rename_i he
        exact .eofPending hp he
    · rename_i b bs hle _
      exact .data hp (b :: bs) (by simp) hle
  · exact .idle

/-- `n` is the room left in the receive buffer. -/
inductive FdEffect (c : Client) (n : ℕ) : Except Left (Client × Bool) → Prop
  | idle : FdEffect c n (.ok (c, false))
  | connected : FdEffect c n (.ok ({ c with cn := 0 }, false))
  | refused : FdEffect c n (.error ⟨.connectError, c⟩)
  | readBlocked : FdEffect c n (.ok (c.log (.read .sock n none), false))
  | readFailed : FdEffect c n (.error ⟨.fdReadError, c.log (.read .sock n none)⟩)
  | eof : FdEffect c n
      (.error ⟨if c.stdineof then .userCloseConn else .serverCloseConn,
        c.log (.read .sock n (some []))⟩)
  | data (bs : List UInt8) (hne : bs ≠ []) (hle : bs.length ≤ n) :
      FdEffect c n (.ok ({ c.log (.read .sock n (some bs)) with frBuf := c.frBuf.fill bs }, true))
  | writeBlocked (hp : c.toBuf.sptr < c.toBuf.eptr) :
      FdEffect c n (.ok (c.log (.write .sock c.toBuf.pending none), false))
  | writeFailed (hp : c.toBuf.sptr < c.toBuf.eptr) :
      FdEffect c n (.error ⟨.fdWriteError, c.log (.write .sock c.toBuf.pending none)⟩)
  | short (hp : c.toBuf.sptr < c.toBuf.eptr) (wn : ℕ) (hle : wn ≤ c.toBuf.eptr - c.toBuf.sptr)
      (hne : c.toBuf.sptr + wn ≠ c.toBuf.eptr) :
      FdEffect c n (.ok ({ c.log (.write .sock c.toBuf.pending (some wn)) with
        toBuf := c.toBuf.advance wn }, false))
  | whole (hp : c.toBuf.sptr < c.toBuf.eptr) (wn : ℕ) (hle : wn ≤ c.toBuf.eptr - c.toBuf.sptr)
      (he : c.toBuf.sptr + wn = c.toBuf.eptr) (hs : c.stdineof = false) :
      FdEffect c n (.ok ({ c.log (.write .sock c.toBuf.pending (some wn)) with
        toBuf := (c.toBuf.advance wn).rewind }, false))
  | wholeEof (hp : c.toBuf.sptr < c.toBuf.eptr) (wn : ℕ) (hle : wn ≤ c.toBuf.eptr - c.toBuf.sptr)
      (he : c.toBuf.sptr + wn = c.toBuf.eptr) (hs : c.stdineof = true) :
      FdEffect c n (.ok (({ c.log (.write .sock c.toBuf.pending (some wn)) with
        toBuf := (c.toBuf.advance wn).rewind }).log .shutdown, false))

theorem fdReadable_effect : FdEffect c (tcpSendBuf - c.frBuf.eptr) (fdReadable c k) := by
  unfold fdReadable
  split
  · dsimp only
    split
    · exact .readFailed
    · exact .readBlocked
  · exact .eof
  · rename_i b bs hle _
    exact .data (b :: bs) (by simp) hle

theorem fdWritable_effect {n : ℕ} : FdEffect c n (fdWritable c k) := by
  unfold fdWritable
  split
  · rename_i hpos
    have hp : c.toBuf.sptr < c.toBuf.eptr := by omega
    split
    · dsimp only
      split
      · exact .writeFailed hp
      · exact .writeBlocked hp
    · rename_i wn hle _
      dsimp only
      split
      · rename_i he
        split
        · rename_i hs
          exact .wholeEof hp wn hle he hs
        · rename_i hs
          exact .whole hp wn hle he (Bool.eq_false_iff.mpr hs)
      · rename_i hne
        exact .short hp wn hle hne
  · exact .idle

/-- The socket is read only when it has been reported readable, and is connected. -/
theorem fdReady_cases {n : ℕ}
    (hread : r.fd.pollin = true → c.cn ≠ -1 → FdEffect c n (fdReadable c k)) :
    FdEffect c n (fdReady c k r b) := by
  unfold fdReady
  split
  · split
    · split
      · exact .connected
      · exact .refused
    · rename_i hcn
      split
      · rename_i hp
        exact hread hp hcn
      · split
        · exact fdWritable_effect
        · exact .idle
  · exact .idle

theorem fdReady_effect : FdEffect c (tcpSendBuf - c.frBuf.eptr) (fdReady c k r b) :=
  fdReady_cases fun _ _ => fdReadable_effect

inductive StdoutEffect (c : Client) (b : Bool) : Except Left Client → Prop
  | idle (h : b = true → c.frBuf.eptr ≤ c.frBuf.sptr) : StdoutEffect c b (.ok c)
  | blocked (hp : c.frBuf.sptr < c.frBuf.eptr) :
      StdoutEffect c b (.ok (c.log (.write .stdout c.frBuf.pending none)))
  | failed (hp : c.frBuf.sptr < c.frBuf.eptr) :
      StdoutEffect c b
        (.error ⟨.stdoutWriteError, c.log (.write .stdout c.frBuf.pending none)⟩)
  | short (hp : c.frBuf.sptr < c.frBuf.eptr) (wn : ℕ) (hle : wn ≤ c.frBuf.eptr - c.frBuf.sptr)
      (hne : c.frBuf.sptr + wn ≠ c.frBuf.eptr) :
      StdoutEffect c b (.ok { c.log (.write .stdout c.frBuf.pending (some wn)) with
        frBuf := c.frBuf.advance wn })
  | whole (hp : c.frBuf.sptr < c.frBuf.eptr) (wn : ℕ) (hle : wn ≤ c.frBuf.eptr - c.frBuf.sptr)
      (he : c.frBuf.sptr + wn = c.frBuf.eptr) :
      StdoutEffect c b (.ok { c.log (.write .stdout c.frBuf.pending (some wn)) with
        frBuf := (c.frBuf.advance wn).rewind })

theorem stdoutReady_effect : StdoutEffect c b (stdoutReady c k r b) := by
  unfold stdoutReady
  split
  · split
    · rename_i hle
      exact .idle (fun _ => by omega)
    · rename_i hpos
      have hp : c.frBuf.sptr < c.frBuf.eptr := by omega
      split
      · dsimp only
        split
        · exact .failed hp
        · exact .blocked hp
      · rename_i wn hle _
        dsimp only
        split
        · rename_i he
          exact .whole hp wn hle he
        · rename_i hne
          exact .short hp wn hle hne
  · rename_i hp
    apply StdoutEffect.idle
    rintro rfl
    simp at hp

/-- What is reported about stdin and the socket was asked for while there was room for it. -/
theorem stdin_asked (hk : Requested c k) (hr : k.poll = .ready r) (hp : r.stdin.pollin = true) :
    c.stdineof = false ∧ c.toBuf.eptr < tcpRecvBuf := by
  have hreq := (hk r hr).1 hp
  unfold events at hreq
  split at hreq
  · simp at hreq
  · simpa using hreq

theorem fd_asked (hk : Requested c k) (hr : k.poll = .ready r) (hp : r.fd.pollin = true)
    (hcn : c.cn ≠ -1) : c.frBuf.eptr < tcpSendBuf := by
  obtain ⟨-, -, hfd, -⟩ := hk r hr
  have hreq := hfd hp
  rw [events, if_neg hcn] at hreq
  exact of_decide_eq_true hreq

/-- An iteration that comes back to the head has done nothing or has run the three stages. -/
theorem iteration_ok {d : Client} (h : iteration c k = .ok d) :
    d = c ∨ ∃ r c₁ b₁ c₂ b₂, k.poll = .ready r ∧ stdinReady c k r = .ok (c₁, b₁) ∧
      fdReady c₁ k r b₁ = .ok (c₂, b₂) ∧ stdoutReady c₂ k r b₂ = .ok d := by
  unfold iteration at h
  split at h
  · split at h
    · simp at h
    · exact Or.inl (Except.ok.inj h).symm
  · exact Or.inl (Except.ok.inj h).symm
  · rename_i r hr
    split at h
    · simp at h
    · rename_i c₁ b₁ h₁
      split at h
      · simp at h
      · rename_i c₂ b₂ h₂
        exact Or.inr ⟨r, c₁, b₁, c₂, b₂, hr, h₁, h₂, h⟩

/-- An iteration that leaves does so at `poll` or in one of the stages. -/
theorem iteration_error {l : Left} (h : iteration c k = .error l) :
    l = ⟨.pollError, c⟩ ∨ ∃ r, k.poll = .ready r ∧ (stdinReady c k r = .error l ∨
      ∃ c₁ b₁, stdinReady c k r = .ok (c₁, b₁) ∧ (fdReady c₁ k r b₁ = .error l ∨
        ∃ c₂ b₂, fdReady c₁ k r b₁ = .ok (c₂, b₂) ∧ stdoutReady c₂ k r b₂ = .error l)) := by
  unfold iteration at h
  split at h
  · split at h
    · exact Or.inl (Except.error.inj h).symm
    · simp at h
  · simp at h
  · rename_i r hr
    refine Or.inr ⟨r, hr, ?_⟩
    split at h
    · rename_i l' h₁
      obtain rfl := Except.error.inj h
      exact Or.inl h₁
    · rename_i c₁ b₁ h₁
      refine Or.inr ⟨c₁, b₁, h₁, ?_⟩
      split at h
      · rename_i l' h₂
        obtain rfl := Except.error.inj h
        exact Or.inl h₂
      · rename_i c₂ b₂ h₂
        exact Or.inr ⟨c₂, b₂, h₂, h⟩

/-- The client that a stage leaves behind, whether or not it ends the loop. -/
def clientOf : Except Left (Client × Bool) → Client
  | .ok (c, _) => c
  | .error l => l.client

def headOf : Except Left Client → Client
  | .ok c => c
  | .error l => l.client

/-- What the three stages preserve holds wherever the iteration stops. The second one starts from
what the first has left. -/
theorem iteration_preserves {P : Client → Prop}
    (hstdin : ∀ r, k.poll = .ready r → P (clientOf (stdinReady c k r)))
    (hfd : ∀ r d b, k.poll = .ready r → stdinReady c k r = .ok (d, b) → P d →
      P (clientOf (fdReady d k r b)))
    (hstdout : ∀ c r b, P c → P (headOf (stdoutReady c k r b))) (hc : P c) :
    P (headOf (iteration c k)) := by
  generalize ho : iteration c k = o
  cases o with
  | ok d =>
    rcases iteration_ok ho with rfl | ⟨r, c₁, b₁, c₂, b₂, hr, h₁, h₂, h₃⟩
    · exact hc
    · have hp₁ := hstdin r hr
      rw [h₁] at hp₁
      have hp₂ := hfd r c₁ b₁ hr h₁ hp₁
      rw [h₂] at hp₂
      have hp₃ := hstdout c₂ r b₂ hp₂
      rw [h₃] at hp₃
      exact hp₃
  | error l =>
    rcases iteration_error ho with rfl | ⟨r, hr, h₁ | ⟨c₁, b₁, h₁, h₂ | ⟨c₂, b₂, h₂, h₃⟩⟩⟩
    · exact hc
    · have hp₁ := hstdin r hr
      rw [h₁] at hp₁
      exact hp₁
    · have hp₁ := hstdin r hr
      rw [h₁] at hp₁
      have hp₂ := hfd r c₁ b₁ hr h₁ hp₁
      rw [h₂] at hp₂
      exact hp₂
    · have hp₁ := hstdin r hr
      rw [h₁] at hp₁
      have hp₂ := hfd r c₁ b₁ hr h₁ hp₁
      rw [h₂] at hp₂
      have hp₃ := hstdout c₂ r b₂ hp₂
      rw [h₃] at hp₃
      exact hp₃

end UnixCodes.NoBlockingTcpClient
