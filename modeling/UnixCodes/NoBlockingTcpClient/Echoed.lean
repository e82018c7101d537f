import UnixCodes.NoBlockingTcpClient.Answered
import UnixCodes.NoBlockingTcpClient.SocketEof

/-! The client and `server.c` come to an end together, and stdout has got what stdin held. -/
namespace UnixCodes.NoBlockingTcpClient

open Posix ByteStream Transition

variable {c d : Client} {k : Answers} {r : PollSet} {b : Bool} {l : Left} {n : ℕ}
  {z : Capacity} {s t : Session} {K K' : Outside} {es : List Event} {a : Session.Action}
  {input : List UInt8}

/-- The end of file that the client knows of has been read. -/
def EofRead (c : Client) : Prop :=
  c.stdineof = true → ∃ n, Call.read .stdin n (some []) ∈ c.calls

theorem EofRead.extends (h : EofRead c) (hd : Extends c d) (heof : d.stdineof = c.stdineof) :
    EofRead d := by
  intro hst
  obtain ⟨n, hn⟩ := h (heof ▸ hst)
  exact ⟨n, hd.calls.subset hn⟩

theorem eofRead_stdinReady (h : EofRead c) : EofRead (clientOf (stdinReady c k r)) := by
  generalize ho : stdinReady c k r = o
  have heff := ho ▸ stdinReady_effect (c := c) (k := k) (r := r)
  have hext := ho ▸ extends_stdinReady (c := c) (k := k) (r := r)
  cases heff with
  | idle | blocked | failed | data => exact h.extends hext rfl
  | eofEmpty | eofPending =>
    intro _
    exact ⟨tcpRecvBuf - c.toBuf.eptr, by simp [clientOf, Client.log]⟩

theorem eofRead_fdReady (h : EofRead c) : EofRead (clientOf (fdReady c k r b)) := by
  generalize ho : fdReady c k r b = o
  have heff := ho ▸ fdReady_effect (c := c) (k := k) (r := r) (b := b)
  have hext := ho ▸ extends_fdReady (c := c) (k := k) (r := r) (b := b)
  cases heff <;> exact h.extends hext rfl

theorem eofRead_stdoutReady (h : EofRead c) : EofRead (headOf (stdoutReady c k r b)) := by
  generalize ho : stdoutReady c k r b = o
  have heff := ho ▸ stdoutReady_effect (c := c) (k := k) (r := r) (b := b)
  have hext := ho ▸ extends_stdoutReady (c := c) (k := k) (r := r) (b := b)
  cases heff <;> exact h.extends hext rfl

theorem eofRead_iteration (h : EofRead c) : EofRead (headOf (iteration c k)) :=
  iteration_preserves (fun _ _ => eofRead_stdinReady h) (fun _ _ _ _ _ => eofRead_fdReady)
    (fun _ _ _ => eofRead_stdoutReady) h

/-- A loop that is left has read the end of the peer's stream. -/
def PeerGone (c : Client) (why : Why) : Prop :=
  (∃ n, Call.read .sock n (some []) ∈ c.calls) ∧
    why = if c.stdineof then .userCloseConn else .serverCloseConn

theorem stdinReady_error (h : stdinReady c k r = .error l) :
    ∃ n, l.client.calls = c.calls ++ [.read .stdin n none] := by
  have heff := h ▸ stdinReady_effect (c := c) (k := k) (r := r)
  cases heff with
  | failed => exact ⟨_, rfl⟩

/-- The socket stage leaves the loop at a read, if writes fail only for want of room. -/
theorem fdReady_error (hk : k.Working) (h : fdReady c k r b = .error l) :
    PeerGone l.client l.why ∨ r.fd.pollin = true ∧ c.cn ≠ -1 ∧
      ∃ n, l.client.calls = c.calls ++ [.read .sock n none] := by
  unfold fdReady at h
  split at h
  · split at h
    · simp [hk.soError] at h
    · rename_i hcn
      split at h
      · rename_i hp
        unfold fdReadable at h
        split at h
        · dsimp only at h
          split at h <;> cases h
          exact .inr ⟨hp, hcn, _, rfl⟩
        · cases h
          exact .inl ⟨⟨tcpSendBuf - c.frBuf.eptr, by simp [Client.log]⟩, rfl⟩
        · cases h
      · split at h
        · unfold fdWritable at h
          split at h
          · split at h
            · rename_i e he
              simp [hk.writeFd _ e he] at h
            · dsimp only at h
              split at h <;> cases h
          · cases h
        · cases h
  · cases h

theorem stdoutReady_ok (hk : k.Working) : ∃ d, stdoutReady c k r b = .ok d := by
  unfold stdoutReady
  split
  · split
    · exact ⟨_, rfl⟩
    · split
      · rename_i e he
        simp [hk.writeStdout _ e he]
      · exact ⟨_, rfl⟩
  · exact ⟨_, rfl⟩

theorem stdinReady_calls : ∃ ys, (clientOf (stdinReady c k r)).calls = c.calls ++ ys ∧
    ∀ n got, Call.read .sock n got ∉ ys := by
  generalize ho : stdinReady c k r = o
  have heff := ho ▸ stdinReady_effect (c := c) (k := k) (r := r)
  cases heff with
  | idle => exact ⟨[], by simp [clientOf], by simp⟩
  | blocked | failed | eofPending | data => exact ⟨_, rfl, by simp⟩
  | eofEmpty => exact ⟨_, List.append_assoc _ _ _, by simp⟩

/-- Nothing but the end of the peer's stream ends the loop. -/
theorem peerGone_of_left (hk : k.Working) (hp : Truthful z K c k) (hes : (outside z).Run K es K')
    (hcalls : (headOf (iteration c k)).calls = c.calls ++ made es)
    (hl : iteration c k = .error l) : PeerGone l.client l.why := by
  rw [hl] at hcalls
  change l.client.calls = _ at hcalls
  cases hr : k.poll with
  | error e => simp [iteration, hr, hk.poll e hr] at hl
  | timeout => simp [iteration, hr] at hl
  | ready r =>
    simp only [iteration, hr] at hl
    cases h₁ : stdinReady c k r with
    | error l' =>
      rw [h₁] at hl
      cases hl
      obtain ⟨n, hn⟩ := stdinReady_error h₁
      rw [hcalls] at hn
      exact (stdin_answered hes (List.append_cancel_left hn ▸ List.mem_singleton_self _)).elim
    | ok p =>
      obtain ⟨d, b⟩ := p
      rw [h₁] at hl
      cases h₂ : fdReady d k r b with
      | ok q =>
        obtain ⟨c', hc'⟩ := stdoutReady_ok (c := q.1) (r := r) (b := q.2) hk
        simp [h₂, hc'] at hl
      | error l' =>
        simp only [h₂] at hl
        cases hl
        rcases fdReady_error hk h₂ with hgone | ⟨hread, hcn, n, hn⟩
        · exact hgone
        · obtain ⟨ys, hys, hno⟩ := stdinReady_calls (c := c) (k := k) (r := r)
          rw [h₁] at hys
          rw [(stdinReady_keeps h₁).2] at hcn
          have hm : made es = ys ++ .read .sock n none :: [] := by
            rw [show d.calls = c.calls ++ ys from hys, hcalls, List.append_assoc] at hn
            exact List.append_cancel_left hn
          exact (socket_answered hes (hp.readable r hr hcn hread) hm hno).elim

/-- The client and what is outside agree on what has been called. -/
structure Agree (input : List UInt8) (s : Session) : Prop where
  streams : Streams s.client
  halfClose : HalfClose s.client
  buffers : Buffers s.client
  eofRead : EofRead s.client
  drained : Drained s.client
  carried : Carried input s.client.calls s.outside
  ended : Ended s.client.calls s.outside
  gone : ∀ why, s.left = some why → PeerGone s.client why

theorem agree_initial (h : (session z input).Initial s) : Agree input s := by
  obtain ⟨hc, hl, hk⟩ := h
  have hcalls : s.client.calls = [] := by rcases hc with hc | hc <;> rw [hc] <;> rfl
  refine ⟨streams_initial hc, halfClose_initial hc, buffers_initial hc, ?_, drained_initial hc,
    ?_, ?_, by simp [hl]⟩
  · intro heof
    rcases hc with hc | hc <;> simp [hc, Client.start] at heof
  · rw [hk, hcalls]
    exact carried_start
  · rw [hk, hcalls]
    exact ended_start

theorem PeerGone.onEof (h : PeerGone l.client l.why) : l.OnEof := by
  have hwhy := h.2
  unfold Left.OnEof
  split at hwhy
  · exact .inl hwhy
  · exact .inr hwhy

theorem drained_iteration (hs : Streams c) (h : Drained c)
    (hgone : ∀ l, iteration c k = .error l → PeerGone l.client l.why) :
    Drained (headOf (iteration c k)) := by
  cases ho : iteration c k with
  | ok d => exact drained_ok hs h ho
  | error l => exact (sameOut_of_eof hs ho (hgone l ho).onEof).drained h

theorem agree_step (hs : Session.Step z s a t) (h : Agree input s) : Agree input t := by
  cases hs with
  | @client k es K hl hk hp hes hcalls =>
    have hgone (l : Left) (ho : iteration s.client k = .error l) : PeerGone l.client l.why :=
      peerGone_of_left hk hp hes hcalls ho
    refine ⟨streams_iteration h.streams, halfClose_iteration h.streams h.halfClose hp.requested,
      buffers_iteration h.streams h.buffers hp.requested, eofRead_iteration h.eofRead,
      drained_iteration h.streams h.drained hgone, ?_, ?_, ?_⟩
    · exact hcalls ▸ carried_run hes h.carried
    · exact hcalls ▸ ended_run hes h.ended
    · intro why hwhy
      cases ho : iteration s.client k with
      | ok d => simp [ho, whyOf] at hwhy
      | error l =>
        rw [ho] at hwhy
        obtain rfl := Option.some.inj hwhy
        exact hgone l ho
  | outside he hs =>
    have hcarried := carried_step hs h.carried
    have hended := ended_step hs h.ended
    rw [he, Option.toList_none, List.append_nil] at hcarried hended
    exact ⟨h.streams, h.halfClose, h.buffers, h.eofRead, h.drained, hcarried, hended, h.gone⟩

theorem rank_step (hs : Session.Step z s a t) (hu : s.Useful a) (h : Agree input s) :
    t.rank < s.rank := by
  cases hs with
  | @client k es K hl hk hp hes hcalls =>
    obtain ⟨r, hr, hbit⟩ := hu k rfl
    have hprogress := useful_progress h.streams hk hp hr hbit hes hcalls
    have hafter := extends_stdinReady.trans (iteration_after_stdin (c := s.client) hr)
    have hpending := pending_moved h.streams (streams_iteration (k := k) h.streams) hcalls
    have hleft := left_run hes
    have hwaits := hafter.waits_le
    unfold Session.rank
    rw [hl, if_pos rfl]
    dsimp only
    rcases hprogress with hmoved | hlt | hout
    · split <;> omega
    · split <;> omega
    · rw [if_neg hout]
      omega
  | outside he hs =>
    have hlt := left_step_own hs he
    unfold Session.rank
    dsimp only
    omega

/-- A `poll` that reports what is asked for and is there gets the client on. -/
theorem client_goes_on (h : Agree input s) (hl : s.left = none)
    (hp : Truthful z s.outside s.client (s.outside.answers z r))
    (hbit : r.stdin.pollin = true ∨ r.fd.pollin = true ∨ r.fd.pollout = true ∨
      r.stdout.pollout = true) : ∃ a t, s.Useful a ∧ Session.Step z s a t := by
  obtain ⟨K, es, hes, hcalls⟩ := iteration_answered (z := z) (r := r) h.streams h.halfClose h.ended
    fun hin => (stdin_asked hp.requested rfl hin).1
  refine ⟨.client (s.outside.answers z r), _, ?_, .client hl answers_working hp hes hcalls⟩
  rintro k ⟨⟩
  exact ⟨r, rfl, hbit⟩

theorem outside_goes_on {e : Event} (he : e.made = none) (hs : Outside.Step z s.outside e K) :
    ∃ a t, s.Useful a ∧ Session.Step z s a t := by
  refine ⟨.outside e, _, ?_, .outside he hs⟩
  rintro k ⟨⟩

/-- Bytes for stdout are written, or taken from the full pipe. -/
theorem stdout_goes_on (h : Agree input s) (hl : s.left = none) (hcn : s.client.cn ≠ -1)
    (hfr : s.client.frBuf.sptr ≠ s.client.frBuf.eptr) :
    ∃ a t, s.Useful a ∧ Session.Step z s a t := by
  by_cases hroom : s.outside.stdout.length < z.stdout
  · refine client_goes_on (r := ⟨.none, .none, ⟨false, true⟩⟩) h hl ?_ (by simp)
    refine ⟨?_, ?_, ?_, ?_⟩ <;> rintro r ⟨⟩ <;> simp [Events.none, events, hcn, hfr, hroom]
  · obtain ⟨u, us, hu⟩ : ∃ u us, s.outside.stdout = u :: us := by
      apply List.exists_cons_of_ne_nil
      rintro hnil
      rw [hnil] at hroom
      exact hroom z.stdout_pos
    have hpipe : s.outside.stdout = [u] ++ us := hu
    exact outside_goes_on (e := .drain) rfl (.drain hpipe (by simp))

/-- With nothing on the way back the server goes on, or the client sends. -/
theorem server_goes_on (h : Agree input s) (hl : s.left = none) (hcn : s.client.cn ≠ -1)
    (hin : s.outside.incoming = []) (hopen : s.outside.closed = false) :
    ∃ a t, s.Useful a ∧ Session.Step z s a t := by
  cases hheld : s.outside.held with
  | cons u us =>
    have hrest : s.outside.held = [u] ++ us := hheld
    have hroom : s.outside.incoming.length + [u].length ≤ z.incoming := by
      rw [hin]
      exact z.incoming_pos
    exact outside_goes_on (e := .serverWrite) rfl (.serverWrite hrest (by simp) hroom)
  | nil =>
    cases hout : s.outside.outgoing with
    | cons u us =>
      let k : Turn := ⟨[u], by simp, by simp [KqueueServer.bufSize]⟩
      have hrest : s.outside.outgoing = k.bytes ++ us := hout
      exact outside_goes_on (e := .serverRead) rfl (.serverRead hheld hrest)
    | nil =>
      by_cases hto : s.client.toBuf.sptr = s.client.toBuf.eptr
      · by_cases heof : s.client.stdineof = true
        · have hshut : s.outside.shut = true := by
            apply h.ended.shut.mpr
            apply List.count_pos_iff.mp
            rw [h.halfClose.once ⟨heof, hto⟩]
            exact one_pos
          exact outside_goes_on (e := .serverClose) rfl (.serverClose hheld hshut hout hopen)
        · have hlt : s.client.toBuf.eptr < tcpRecvBuf := by
            rw [(h.buffers.toBuf.rewound hto).2]
            decide
          refine client_goes_on (r := ⟨⟨true, false⟩, .none, .none⟩) h hl ?_ (by simp)
          refine ⟨?_, ?_, ?_, ?_⟩ <;> rintro r ⟨⟩ <;> simp [Events.none, events, hcn, heof, hlt]
      · have hroom : s.outside.outgoing.length < z.outgoing := by
          rw [hout]
          exact z.outgoing_pos
        refine client_goes_on (r := ⟨.none, ⟨false, true⟩, .none⟩) h hl ?_ (by simp)
        refine ⟨?_, ?_, ?_, ?_⟩ <;> rintro r ⟨⟩ <;> simp [Events.none, events, hcn, hto, hroom]

/-- Nobody waits for ever: not the client for the server, nor the server for the client. -/
theorem session_goes_on (h : Agree input s) (hl : s.left = none) :
    ∃ a t, s.Useful a ∧ Session.Step z s a t := by
  by_cases hcn : s.client.cn = -1
  · refine client_goes_on (r := ⟨.none, ⟨false, true⟩, .none⟩) h hl ?_ (by simp)
    refine ⟨?_, ?_, ?_, ?_⟩ <;> rintro r ⟨⟩ <;> simp [Events.none, events, hcn]
  by_cases hfr : s.client.frBuf.sptr = s.client.frBuf.eptr
  · by_cases hread : s.outside.Readable
    · have hlt : s.client.frBuf.eptr < tcpSendBuf := by
        rw [(h.buffers.frBuf.rewound hfr).2]
        decide
      refine client_goes_on (r := ⟨.none, ⟨true, false⟩, .none⟩) h hl ?_ (by simp)
      refine ⟨?_, ?_, ?_, ?_⟩ <;> rintro r ⟨⟩ <;> simp [Events.none, events, hcn, hlt, hread]
    · obtain ⟨hin, hopen⟩ := not_or.mp hread
      exact server_goes_on h hl hcn (not_not.mp hin) (Bool.eq_false_iff.mpr hopen)
  · exact stdout_goes_on h hl hcn hfr

/-- The server has sent back all of stdin, and stdout has got it but for what the last write has not
taken. -/
structure Echoed (input : List UInt8) (s : Session) : Prop where
  left : s.left = some .userCloseConn
  output : s.outside.output ++ s.client.frBuf.pending = input
  complete : s.outside.output = input ↔ StdoutTookAll s.client.calls
  served : (KqueueServer.serverRead s.outside.served).2 = .eof
  sent : KqueueServer.sent (KqueueServer.serverRead s.outside.served).1 = input

theorem echoed_of_left {why : Why} (h : Agree input s) (hl : s.left = some why)
    (hpipe : s.outside.stdout = []) : Echoed input s := by
  obtain ⟨⟨n, hn⟩, hwhy⟩ := h.gone why hl
  obtain ⟨hin, hclosed⟩ := h.ended.sock n (h.buffers.reads _ _ _ hn) hn
  obtain ⟨hshut, hout, hheld⟩ := h.ended.closed hclosed
  have hfinished : s.client.Finished := by
    by_contra hf
    exact h.halfClose.never hf (h.ended.shut.mp hshut)
  obtain ⟨m, hm⟩ := h.eofRead hfinished.1
  have hstdin := h.ended.stdin m (h.buffers.reads _ _ _ hm) hm
  have hturns : s.outside.turns.flatMap Turn.bytes = input :=
    calc s.outside.turns.flatMap Turn.bytes
        = sent .sock s.client.calls := by rw [← h.carried.turns, hout, List.append_nil]
      _ = received .stdin s.client.calls := h.streams.outward.complete_iff.mpr hfinished.2
      _ = input := by rw [← h.carried.stdin, hstdin, List.append_nil]
  have houtput : s.outside.output ++ s.client.frBuf.pending = input :=
    calc s.outside.output ++ s.client.frBuf.pending
        = sent .stdout s.client.calls ++ s.client.frBuf.pending := by
          rw [← h.carried.stdout, hpipe, List.append_nil]
      _ = received .sock s.client.calls := h.streams.inward.stream
      _ = s.outside.turns.flatMap Turn.bytes := by
          rw [← h.carried.back, hin, hheld, List.append_nil, List.append_nil]
      _ = input := hturns
  have hdrained : s.client.frBuf.sptr = s.client.frBuf.eptr ↔ StdoutTookAll s.client.calls :=
    h.drained
  have hserved : s.outside.served = s.outside.turns.map Turn.answers ++ [endOfFile] := by
    rw [Outside.served, if_pos hclosed]
  obtain ⟨hexit, hsent⟩ := serverRead_turns s.outside.turns
  refine ⟨by rw [hl, hwhy, if_pos hfinished.1], houtput, ?_, hserved ▸ hexit, ?_⟩
  · rw [← hdrained, ← Window.pending_eq_nil h.streams.inward.le_eptr, ← houtput]
    simp
  · rw [hserved, hsent, hturns]

/-- Whatever the capacities and however the bytes are split, the client and the server come to an
end, and stdin has been echoed. -/
theorem echo_ends (h : (session z input).Initial s) :
    ((session z input).restrict Session.Useful).Ends s (Echoed input) := by
  apply System.ends_of_rank (I := fun s n => Agree input s ∧ s.rank = n) (n := s.rank)
  · rintro s a t n ⟨hu, hs⟩ ⟨h, rfl⟩
    exact ⟨t.rank, rank_step hs hu h, agree_step hs h, rfl⟩
  · rintro s n ⟨h, -⟩ hstuck
    have hpipe : s.outside.stdout = [] := by
      by_contra hne
      obtain ⟨u, us, hu⟩ := List.exists_cons_of_ne_nil hne
      have hdrain : s.outside.stdout = [u] ++ us := hu
      obtain ⟨a, t, hs⟩ := outside_goes_on (z := z) (e := .drain) rfl (.drain hdrain (by simp))
      exact hstuck a t hs
    cases hl : s.left with
    | none =>
      obtain ⟨a, t, hs⟩ := session_goes_on (z := z) h hl
      exact absurd hs (hstuck a t)
    | some why => exact echoed_of_left h hl hpipe
  · exact ⟨agree_initial h, rfl⟩

/-- One byte at a time on every way. -/
theorem echo_ends_slow : ∃ s : Session,
    (session ⟨1, 1, 1, one_pos, one_pos, one_pos⟩ [104, 105]).Initial s ∧
    ((session ⟨1, 1, 1, one_pos, one_pos, one_pos⟩ [104, 105]).restrict Session.Useful).Ends s
      (Echoed [104, 105]) :=
  ⟨⟨.start (-1), none, .start [104, 105]⟩, ⟨.inr rfl, rfl, rfl⟩, echo_ends ⟨.inr rfl, rfl, rfl⟩⟩

end UnixCodes.NoBlockingTcpClient
