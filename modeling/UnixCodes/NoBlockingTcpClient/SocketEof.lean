import UnixCodes.NoBlockingTcpClient.ByteStreams

/-! What becomes of received bytes when the loop is left on a `read` of 0 from the socket. -/
namespace UnixCodes.NoBlockingTcpClient

open Posix ByteStream Transition

variable {c d : Client} {k : Answers} {r : PollSet} {x : Call} {calls : List Call} {b : Bool}
  {l : Left}

def Call.stdoutWrite : Call → Option (List UInt8 × Option ℕ)
  | .write .stdout buf accepted => some (buf, accepted)
  | _ => none

/-- The last write to stdout, with what it was offered and what it accepted. -/
def lastStdoutWrite (calls : List Call) : Option (List UInt8 × Option ℕ) :=
  (calls.filterMap Call.stdoutWrite).getLast?

/-- Either nothing was ever written to stdout, or the last write took all it was offered. -/
def StdoutTookAll (calls : List Call) : Prop :=
  ∀ buf accepted, lastStdoutWrite calls = some (buf, accepted) → accepted = some buf.length

/-- The loop was left because `read` on the socket returned 0. -/
def Left.OnEof (l : Left) : Prop := l.why = .userCloseConn ∨ l.why = .serverCloseConn

theorem lastStdoutWrite_other (h : x.stdoutWrite = none) :
    lastStdoutWrite (calls ++ [x]) = lastStdoutWrite calls := by
  simp [lastStdoutWrite, h]

theorem lastStdoutWrite_stdout {buf : List UInt8} {accepted : Option ℕ} :
    lastStdoutWrite (calls ++ [.write .stdout buf accepted]) = some (buf, accepted) := by
  simp [lastStdoutWrite, Call.stdoutWrite]

/-- Neither the receive buffer nor the writes to stdout have moved. -/
def SameOut (c d : Client) : Prop :=
  d.frBuf = c.frBuf ∧ lastStdoutWrite d.calls = lastStdoutWrite c.calls

theorem SameOut.trans {e : Client} (h : SameOut c d) (h' : SameOut d e) : SameOut c e :=
  ⟨h'.1.trans h.1, h'.2.trans h.2⟩

theorem sameOut_log (h : x.stdoutWrite = none) : SameOut c (c.log x) :=
  ⟨rfl, lastStdoutWrite_other h⟩

theorem sameOut_stdinReady : SameOut c (clientOf (stdinReady c k r)) := by
  have heof (n : ℕ) : SameOut c { c.log (.read .stdin n (some [])) with stdineof := true } :=
    ⟨rfl, lastStdoutWrite_other rfl⟩
  generalize ho : stdinReady c k r = o
  have heff := ho ▸ stdinReady_effect (c := c) (k := k) (r := r)
  cases heff with
  | idle => exact ⟨rfl, rfl⟩
  | blocked => exact sameOut_log rfl
  | failed => exact sameOut_log rfl
  | eofEmpty => exact (heof _).trans (sameOut_log rfl)
  | eofPending => exact heof _
  | data => exact ⟨rfl, lastStdoutWrite_other rfl⟩

/-- What the socket stage does to the way out: with `can_write_out` set it has put bytes there. -/
def OutEffect (c : Client) : Except Left (Client × Bool) → Prop
  | .ok (d, true) => d.frBuf.sptr < d.frBuf.eptr
  | .ok (d, false) => SameOut c d
  | .error l => SameOut c l.client

theorem outEffect_fdReady (hs : Streams c) : OutEffect c (fdReady c k r b) := by
  generalize ho : fdReady c k r b = o
  have heff := ho ▸ fdReady_effect (c := c) (k := k) (r := r) (b := b)
  cases heff with
  | idle => exact ⟨rfl, rfl⟩
  | connected => exact ⟨rfl, rfl⟩
  | refused => exact ⟨rfl, rfl⟩
  | readBlocked => exact sameOut_log rfl
  | readFailed => exact sameOut_log rfl
  | eof => exact sameOut_log rfl
  | data bs hne _ =>
    have hle := hs.inward.le_eptr
    have hpos := List.length_pos_iff.mpr hne
    change c.frBuf.sptr < c.frBuf.eptr + bs.length
    omega
  | writeBlocked => exact sameOut_log rfl
  | writeFailed => exact sameOut_log rfl
  | short => exact ⟨rfl, lastStdoutWrite_other rfl⟩
  | whole => exact ⟨rfl, lastStdoutWrite_other rfl⟩
  | wholeEof _ n =>
    have hw : SameOut c { c.log (.write .sock c.toBuf.pending (some n)) with
        toBuf := (c.toBuf.advance n).rewind } := ⟨rfl, lastStdoutWrite_other rfl⟩
    exact hw.trans (sameOut_log rfl)

/-- The receive buffer is empty exactly when the last write to stdout took everything. -/
def Drained (c : Client) : Prop := c.frBuf.sptr = c.frBuf.eptr ↔ StdoutTookAll c.calls

theorem SameOut.drained (h : SameOut c d) (hc : Drained c) : Drained d := by
  simpa [Drained, StdoutTookAll, h.1, h.2] using hc

theorem drained_initial (h : Initial c) : Drained c := by
  rcases h with rfl | rfl <;> simp [Drained, StdoutTookAll, lastStdoutWrite, Client.start]

theorem drained_refused (h : c.frBuf.sptr < c.frBuf.eptr) :
    Drained (c.log (.write .stdout c.frBuf.pending none)) := by
  simp only [Drained, StdoutTookAll, Client.log, lastStdoutWrite_stdout]
  constructor
  · intro he
    omega
  · intro hall
    have := hall _ _ rfl
    simp at this

theorem drained_written {n : ℕ} {buf : Window UInt8} (hle : n ≤ c.frBuf.eptr - c.frBuf.sptr)
    (he : buf.sptr = buf.eptr ↔ c.frBuf.sptr + n = c.frBuf.eptr)
    (hp : c.frBuf.sptr < c.frBuf.eptr) :
    Drained { c.log (.write .stdout c.frBuf.pending (some n)) with frBuf := buf } := by
  simp only [Drained, StdoutTookAll, Client.log, lastStdoutWrite_stdout, he]
  constructor
  · rintro heq _ _ ⟨⟩
    simp only [Window.length_pending, Option.some.injEq]
    omega
  · intro hall
    have := hall _ _ rfl
    simp only [Window.length_pending, Option.some.injEq] at this
    omega

/-- Bytes from the socket are offered to stdout before the loop comes round again. -/
theorem drained_stdoutReady (hb : if b = true then c.frBuf.sptr < c.frBuf.eptr else Drained c)
    (h : stdoutReady c k r b = .ok d) : Drained d := by
  have heff := h ▸ stdoutReady_effect (c := c) (k := k) (r := r) (b := b)
  cases heff with
  | idle hempty =>
    split at hb
    · have := hempty ‹_›
      omega
    · exact hb
  | blocked hp => exact drained_refused hp
  | short hp n hle hne => exact drained_written hle (by simp) hp
  | whole hp n hle he => exact drained_written hle (by simp [he]) hp

theorem drained_ok (hs : Streams c) (hc : Drained c) (hd : iteration c k = .ok d) : Drained d := by
  rcases iteration_ok hd with rfl | ⟨r, c₁, b₁, c₂, b₂, -, h₁, h₂, h₃⟩
  · exact hc
  · have hs₁ := streams_stdinReady (k := k) (r := r) hs
    have ho₁ := sameOut_stdinReady (c := c) (k := k) (r := r)
    rw [h₁] at hs₁ ho₁
    have ho₂ := outEffect_fdReady (k := k) (r := r) (b := b₁) hs₁
    rw [clientOf, h₂] at ho₂
    refine drained_stdoutReady ?_ h₃
    cases b₂ with
    | true => exact ho₂
    | false => exact SameOut.drained ho₂ (SameOut.drained ho₁ hc)

theorem drained_reachable (h : system.Reachable c) : Drained c := by
  apply System.reachable_induction (fun _ => drained_initial) ?_ h
  intro c k d hr hd hc
  exact drained_ok (streams_reachable hr) hc hd

/-- The socket's end of file ends the loop before the stdout stage of that iteration. -/
theorem sameOut_of_eof (hs : Streams c) (h : iteration c k = .error l) (hw : l.OnEof) :
    SameOut c l.client := by
  rcases iteration_error h with rfl | ⟨r, -, h₁ | ⟨c₁, b₁, h₁, h₂ | ⟨c₂, b₂, h₂, h₃⟩⟩⟩
  · exact ⟨rfl, rfl⟩
  · have ho₁ := sameOut_stdinReady (c := c) (k := k) (r := r)
    rw [h₁] at ho₁
    exact ho₁
  · have hs₁ := streams_stdinReady (k := k) (r := r) hs
    have ho₁ := sameOut_stdinReady (c := c) (k := k) (r := r)
    rw [h₁] at hs₁ ho₁
    have ho₂ := outEffect_fdReady (k := k) (r := r) (b := b₁) hs₁
    rw [clientOf, h₂] at ho₂
    exact SameOut.trans ho₁ ho₂
  · have heff := h₃ ▸ stdoutReady_effect (c := c₂) (k := k) (r := r) (b := b₂)
    cases heff with
    | failed => simp [Left.OnEof] at hw

/-- When the loop ends on the socket's end of file, everything received has been written to stdout
if and only if the last write to stdout took all it was offered. -/
theorem received_written_iff (h : system.Reachable c) (hl : iteration c k = .error l)
    (hw : l.OnEof) :
    sent .stdout l.client.calls = received .sock l.client.calls ↔ StdoutTookAll l.client.calls := by
  have hs := streams_reachable h
  have hdrained := (sameOut_of_eof hs hl hw).drained (drained_reachable h)
  exact (streams_error hs hl).inward.complete_iff.trans hdrained

/-- The socket delivers `ok`, of which stdout takes one byte. -/
def Answers.slowStdout : Answers :=
  { Answers.quiet (.ready ⟨.none, ⟨true, false⟩, .none⟩) with
    readFd := fun n => if h : 2 ≤ n then .bytes [111, 107] h else .error EWOULDBLOCK
    writeStdout := fun n => if h : 1 ≤ n then .count 1 h else .error EWOULDBLOCK }

/-- The socket is at end of file. -/
def Answers.peerClosed : Answers :=
  { Answers.quiet (.ready ⟨.none, ⟨true, false⟩, .none⟩) with
    readFd := fun n => .bytes [] (Nat.zero_le n) }

theorem slowStdout_run : ∃ (c : Client) (l : Left), system.Reachable c ∧
    iteration c .peerClosed = .error l ∧ l.OnEof ∧ sent .stdout l.client.calls = [111] ∧
    received .sock l.client.calls = [111, 107] :=
  ⟨_, _, ⟨.start 0, [.slowStdout], .inl rfl, .stepL rfl .refl⟩, rfl, .inr rfl, rfl, rfl⟩

theorem received_written_iff_slowStdout :
    ∃ (c : Client) (l : Left), system.Reachable c ∧ iteration c .peerClosed = .error l ∧ l.OnEof ∧
      received .sock l.client.calls = [111, 107] ∧
      (sent .stdout l.client.calls = received .sock l.client.calls ↔
        StdoutTookAll l.client.calls) := by
  obtain ⟨c, l, hc, hl, hw, -, hrecv⟩ := slowStdout_run
  exact ⟨c, l, hc, hl, hw, hrecv, received_written_iff hc hl hw⟩

/-- The loop does not wait for stdout: the second byte of `ok` is dropped. -/
theorem eof_drops_received :
    ¬ ∀ (c : Client) (k : Answers) (l : Left), system.Reachable c → iteration c k = .error l →
      l.OnEof → sent .stdout l.client.calls = received .sock l.client.calls := by
  intro hall
  obtain ⟨c, l, hc, hl, hw, hsent, hrecv⟩ := slowStdout_run
  have heq := hall c .peerClosed l hc hl hw
  rw [hsent, hrecv] at heq
  simp at heq

end UnixCodes.NoBlockingTcpClient
