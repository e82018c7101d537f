import UnixCodes.NoBlockingTcpClient.Stages

/-! Both directions of the client are relays: what has come in is what has gone out, then what is
pending in the buffer. -/
namespace UnixCodes.NoBlockingTcpClient

open Posix ByteStream Transition

variable {c d : Client} {k : Answers} {r : PollSet} {f : Fd} {x : Call} {calls : List Call}
  {b : Bool} {l : Left}

@[simp] theorem received_append {xs : List Call} :
    received f (calls ++ xs) = received f calls ++ received f xs := List.flatMap_append

@[simp] theorem sent_append {xs : List Call} :
    sent f (calls ++ xs) = sent f calls ++ sent f xs := List.flatMap_append

@[simp] theorem received_singleton : received f [x] = x.bytesRead f := by simp [received]

@[simp] theorem sent_singleton : sent f [x] = x.bytesWritten f := by simp [sent]

structure Streams (c : Client) : Prop where
  outward : Relay c.toBuf tcpRecvBuf (sent .sock c.calls) (received .stdin c.calls)
  inward : Relay c.frBuf tcpSendBuf (sent .stdout c.calls) (received .sock c.calls)

theorem streams_initial (h : Initial c) : Streams c := by
  rcases h with rfl | rfl <;> exact ⟨Relay.start _, Relay.start _⟩

/-- Calls that move no bytes. -/
theorem Streams.log (h : Streams c) (hr : ∀ f, x.bytesRead f = [])
    (hw : ∀ f, x.bytesWritten f = []) : Streams (c.log x) := by
  constructor
  · simpa [Client.log, hr, hw] using h.outward
  · simpa [Client.log, hr, hw] using h.inward

theorem streams_stdinReady (h : Streams c) : Streams (clientOf (stdinReady c k r)) := by
  have heof (n : ℕ) : Streams { c.log (.read .stdin n (some [])) with stdineof := true } := by
    have hlog := h.log (x := .read .stdin n (some [])) (by simp [Call.bytesRead]) (fun _ => rfl)
    exact ⟨hlog.outward, hlog.inward⟩
  generalize ho : stdinReady c k r = o
  have heff := ho ▸ stdinReady_effect (c := c) (k := k) (r := r)
  cases heff with
  | idle => exact h
  | blocked => exact h.log (fun _ => rfl) (fun _ => rfl)
  | failed => exact h.log (fun _ => rfl) (fun _ => rfl)
  | eofEmpty => exact (heof _).log (fun _ => rfl) (fun _ => rfl)
  | eofPending => exact heof _
  | data _ bs _ hle =>
    constructor
    · simpa [clientOf, Client.log, Call.bytesRead, Call.bytesWritten] using h.outward.fill hle
    · simpa [clientOf, Client.log, Call.bytesRead, Call.bytesWritten] using h.inward

/-- A write takes a prefix of the pending bytes. -/
theorem Streams.written (h : Streams c) {n : ℕ} (hn : n ≤ c.toBuf.eptr - c.toBuf.sptr) :
    Streams { c.log (.write .sock c.toBuf.pending (some n)) with toBuf := c.toBuf.advance n } := by
  constructor
  · simpa [Client.log, Call.bytesRead, Call.bytesWritten] using h.outward.advance hn
  · simpa [Client.log, Call.bytesRead, Call.bytesWritten] using h.inward

theorem streams_fdReady (h : Streams c) : Streams (clientOf (fdReady c k r b)) := by
  generalize ho : fdReady c k r b = o
  have heff := ho ▸ fdReady_effect (c := c) (k := k) (r := r) (b := b)
  cases heff with
  | idle => exact h
  | connected => exact ⟨h.outward, h.inward⟩
  | refused => exact h
  | readBlocked => exact h.log (fun _ => rfl) (fun _ => rfl)
  | readFailed => exact h.log (fun _ => rfl) (fun _ => rfl)
  | eof => exact h.log (by simp [Call.bytesRead]) (fun _ => rfl)
  | data bs _ hle =>
    constructor
    · simpa [clientOf, Client.log, Call.bytesRead, Call.bytesWritten] using h.outward
    · simpa [clientOf, Client.log, Call.bytesRead, Call.bytesWritten] using h.inward.fill hle
  | writeBlocked => exact h.log (fun _ => rfl) (fun _ => rfl)
  | writeFailed => exact h.log (fun _ => rfl) (fun _ => rfl)
  | short _ n hle _ => exact h.written hle
  | whole _ n hle he _ =>
    have hw := h.written hle
    exact ⟨hw.outward.rewind he, hw.inward⟩
  | wholeEof _ n hle he _ =>
    have hw := h.written hle
    have hr : Streams { c.log (.write .sock c.toBuf.pending (some n)) with
        toBuf := (c.toBuf.advance n).rewind } := ⟨hw.outward.rewind he, hw.inward⟩
    exact hr.log (fun _ => rfl) (fun _ => rfl)

theorem streams_stdoutReady (h : Streams c) : Streams (headOf (stdoutReady c k r b)) := by
  have hw {n : ℕ} (hn : n ≤ c.frBuf.eptr - c.frBuf.sptr) :
      Streams { c.log (.write .stdout c.frBuf.pending (some n)) with
        frBuf := c.frBuf.advance n } := by
    constructor
    · simpa [Client.log, Call.bytesRead, Call.bytesWritten] using h.outward
    · simpa [Client.log, Call.bytesRead, Call.bytesWritten] using h.inward.advance hn
  generalize ho : stdoutReady c k r b = o
  have heff := ho ▸ stdoutReady_effect (c := c) (k := k) (r := r) (b := b)
  cases heff with
  | idle => exact h
  | blocked => exact h.log (fun _ => rfl) (fun _ => rfl)
  | failed => exact h.log (fun _ => rfl) (fun _ => rfl)
  | short _ n hle _ => exact hw hle
  | whole _ n hle he => exact ⟨(hw hle).outward, (hw hle).inward.rewind he⟩

/-- No byte is lost on the way out of the loop either: it is still in the buffer. -/
theorem streams_iteration (h : Streams c) : Streams (headOf (iteration c k)) :=
  iteration_preserves (fun _ _ => streams_stdinReady h) (fun _ _ _ _ _ => streams_fdReady)
    (fun _ _ _ => streams_stdoutReady) h

theorem streams_ok (h : Streams c) (hd : iteration c k = .ok d) : Streams d := by
  have hit := streams_iteration (k := k) h
  rw [hd] at hit
  exact hit

theorem streams_error (h : Streams c) (hl : iteration c k = .error l) : Streams l.client := by
  have hit := streams_iteration (k := k) h
  rw [hl] at hit
  exact hit

theorem streams_reachable (h : system.Reachable c) : Streams c := by
  apply System.reachable_invariant (fun _ => streams_initial) ?_ h
  intro c k d hs hc
  exact streams_ok hc hs

/-- What the three stages preserve together with the streams. -/
theorem iteration_invariant {P : Client → Prop} (hs : Streams c)
    (hstdin : ∀ r, k.poll = .ready r → P (clientOf (stdinReady c k r)))
    (hfd : ∀ r d b, k.poll = .ready r → stdinReady c k r = .ok (d, b) → Streams d → P d →
      P (clientOf (fdReady d k r b)))
    (hstdout : ∀ c r b, P c → P (headOf (stdoutReady c k r b))) (hc : P c) :
    P (headOf (iteration c k)) := by
  have hboth : Streams (headOf (iteration c k)) ∧ P (headOf (iteration c k)) := by
    apply iteration_preserves (P := fun c => Streams c ∧ P c)
    · intro r hr
      exact ⟨streams_stdinReady hs, hstdin r hr⟩
    · rintro r d b hr hd ⟨hs', hp⟩
      exact ⟨streams_fdReady hs', hfd r d b hr hd hs' hp⟩
    · rintro c r b ⟨hs', hp⟩
      exact ⟨streams_stdoutReady hs', hstdout c r b hp⟩
    · exact ⟨hs, hc⟩
  exact hboth.2

/-- An invariant of the iterations in which `poll` reports only what it was asked for. -/
theorem requested_invariant {P : Client → Prop} (hinit : ∀ c, Initial c → P c)
    (hit : ∀ c k, Streams c → Requested c k → P c → P (headOf (iteration c k)))
    (h : (system.restrict Requested).Reachable c) : P c := by
  apply System.reachable_induction hinit ?_ h
  rintro c k d hr ⟨hk, hd⟩ hc
  have hp := hit c k (streams_reachable (System.restrict_reachable hr)) hk hc
  rw [hd] at hp
  exact hp

/-- At every loop head, accepted bytes and then pending bytes are the bytes read, both ways. -/
theorem byte_streams (h : system.Reachable c) :
    sent .sock c.calls ++ c.toBuf.pending = received .stdin c.calls ∧
      sent .stdout c.calls ++ c.frBuf.pending = received .sock c.calls :=
  ⟨(streams_reachable h).outward.stream, (streams_reachable h).inward.stream⟩

/-- An iteration in which every call would block. -/
def Answers.quiet (p : PollResult) : Answers :=
  ⟨p, 0, fun _ => .error EWOULDBLOCK, fun _ => .error EWOULDBLOCK, fun _ => .error EWOULDBLOCK,
    fun _ => .error EWOULDBLOCK⟩

def Events.none : Events := ⟨false, false⟩

/-- The connection is made, `hi` goes out in part, and stdout does not take `ok`. -/
theorem byte_streams_shortWrite :
    ∃ c : Client, system.Reachable c ∧ c.toBuf.pending = [105] ∧ c.frBuf.pending = [111, 107] ∧
      sent .sock c.calls ++ c.toBuf.pending = received .stdin c.calls ∧
      sent .stdout c.calls ++ c.frBuf.pending = received .sock c.calls := by
  let k₁ : Answers := .quiet (.ready ⟨.none, ⟨false, true⟩, .none⟩)
  let k₂ : Answers :=
    { Answers.quiet (.ready ⟨⟨true, false⟩, .none, .none⟩) with
      readStdin := fun n => if h : 2 ≤ n then .bytes [104, 105] h else .error EWOULDBLOCK
      writeFd := fun n => if h : 1 ≤ n then .count 1 h else .error EWOULDBLOCK }
  let k₃ : Answers :=
    { Answers.quiet (.ready ⟨.none, ⟨true, false⟩, .none⟩) with
      readFd := fun n => if h : 2 ≤ n then .bytes [111, 107] h else .error EWOULDBLOCK }
  have hr : ∃ c : Client, system.Reachable c ∧ c.toBuf.pending = [105] ∧
      c.frBuf.pending = [111, 107] :=
    ⟨_, ⟨.start (-1), [k₁, k₂, k₃], .inr rfl, .stepL rfl (.stepL rfl (.stepL rfl .refl))⟩, rfl, rfl⟩
  obtain ⟨c, hc, hto, hfr⟩ := hr
  exact ⟨c, hc, hto, hfr, byte_streams hc⟩

end UnixCodes.NoBlockingTcpClient
