import UnixCodes.NoBlockingTcpClient.ByteStreams

/-! The pointers into the two buffers, the lengths of the reads, and the events asked for. -/
namespace UnixCodes.NoBlockingTcpClient

open Posix ByteStream Transition

variable {c d : Client} {k : Answers} {r : PollSet} {x : Call} {calls : List Call} {b : Bool}
  {f : Fd} {n : ℕ} {got : Option (List UInt8)}

/-- No `read` was for 0 bytes, so one that returned 0 has met the end of file. -/
def ReadsPositive (calls : List Call) : Prop := ∀ f n got, Call.read f n got ∈ calls → 0 < n

structure Buffers (c : Client) : Prop where
  toBuf : c.toBuf.Packed
  frBuf : c.frBuf.Packed
  reads : ReadsPositive c.calls

theorem readsPositive_append (h : ReadsPositive calls) (hx : ReadsPositive [x]) :
    ReadsPositive (calls ++ [x]) := by
  intro f n got hmem
  rcases List.mem_append.mp hmem with hmem | hmem
  · exact h f n got hmem
  · exact hx f n got hmem

theorem readsPositive_read (hn : 0 < n) : ReadsPositive [.read f n got] := by
  intro f' n' got' hmem
  cases List.mem_singleton.mp hmem
  exact hn

theorem readsPositive_write {buf : List UInt8} {accepted : Option ℕ} :
    ReadsPositive [.write f buf accepted] := by simp [ReadsPositive]

theorem readsPositive_shutdown : ReadsPositive [.shutdown] := by simp [ReadsPositive]

theorem Buffers.log (h : Buffers c) (hx : ReadsPositive [x]) : Buffers (c.log x) :=
  ⟨h.toBuf, h.frBuf, readsPositive_append h.reads hx⟩

theorem buffers_initial (h : Initial c) : Buffers c := by
  rcases h with rfl | rfl
  all_goals
    refine ⟨fun _ => rfl, fun _ => rfl, ?_⟩
    simp [ReadsPositive, Client.start]

theorem buffers_stdinReady (hs : Streams c) (h : Buffers c)
    (hroom : r.stdin.pollin = true → c.toBuf.eptr < tcpRecvBuf) :
    Buffers (clientOf (stdinReady c k r)) := by
  have hread (hp : r.stdin.pollin = true) (got : Option (List UInt8)) :
      Buffers (c.log (.read .stdin (tcpRecvBuf - c.toBuf.eptr) got)) := by
    have hlt := hroom hp
    exact h.log (readsPositive_read (by omega))
  generalize ho : stdinReady c k r = o
  have heff := ho ▸ stdinReady_effect (c := c) (k := k) (r := r)
  cases heff with
  | idle => exact h
  | blocked hp => exact hread hp none
  | failed hp => exact hread hp none
  | eofEmpty hp _ =>
    have heof := hread hp (some [])
    exact Buffers.log ⟨heof.toBuf, heof.frBuf, heof.reads⟩ readsPositive_shutdown
  | eofPending hp _ =>
    have heof := hread hp (some [])
    exact ⟨heof.toBuf, heof.frBuf, heof.reads⟩
  | data hp bs hne _ =>
    have hdata := hread hp (some bs)
    exact ⟨Window.packed_fill hs.outward.le_eptr hne, hdata.frBuf, hdata.reads⟩

/-- A socket that is polled for input only with room for it is read only with room for it. -/
theorem fdReady_effect_room
    (hroom : r.fd.pollin = true → c.cn ≠ -1 → c.frBuf.eptr < tcpSendBuf) :
    ∃ n, 0 < n ∧ FdEffect c n (fdReady c k r b) := by
  by_cases hlt : c.frBuf.eptr < tcpSendBuf
  · exact ⟨tcpSendBuf - c.frBuf.eptr, by omega, fdReady_effect⟩
  · exact ⟨1, one_pos, fdReady_cases fun hp hcn => absurd (hroom hp hcn) hlt⟩

theorem buffers_fdReady (hs : Streams c) (h : Buffers c)
    (hroom : r.fd.pollin = true → c.cn ≠ -1 → c.frBuf.eptr < tcpSendBuf) :
    Buffers (clientOf (fdReady c k r b)) := by
  have hwrite (accepted : Option ℕ) : Buffers (c.log (.write .sock c.toBuf.pending accepted)) :=
    h.log readsPositive_write
  obtain ⟨n, hn, heff⟩ := fdReady_effect_room (k := k) (b := b) hroom
  have hread (got : Option (List UInt8)) : Buffers (c.log (.read .sock n got)) :=
    h.log (readsPositive_read hn)
  generalize fdReady c k r b = o at heff
  cases heff with
  | idle => exact h
  | connected => exact ⟨h.toBuf, h.frBuf, h.reads⟩
  | refused => exact h
  | readBlocked => exact hread none
  | readFailed => exact hread none
  | eof => exact hread (some [])
  | data bs hne _ =>
    have hdata := hread (some bs)
    exact ⟨hdata.toBuf, Window.packed_fill hs.inward.le_eptr hne, hdata.reads⟩
  | writeBlocked => exact hwrite none
  | writeFailed => exact hwrite none
  | short _ wn _ hne =>
    have hshort := hwrite (some wn)
    exact ⟨Window.packed_advance hne, hshort.frBuf, hshort.reads⟩
  | whole _ wn =>
    have hwhole := hwrite (some wn)
    exact ⟨Window.packed_rewind, hwhole.frBuf, hwhole.reads⟩
  | wholeEof _ wn =>
    have hwhole := hwrite (some wn)
    exact Buffers.log ⟨Window.packed_rewind, hwhole.frBuf, hwhole.reads⟩ readsPositive_shutdown

theorem buffers_stdoutReady (h : Buffers c) : Buffers (headOf (stdoutReady c k r b)) := by
  have hwrite (accepted : Option ℕ) : Buffers (c.log (.write .stdout c.frBuf.pending accepted)) :=
    h.log readsPositive_write
  generalize ho : stdoutReady c k r b = o
  have heff := ho ▸ stdoutReady_effect (c := c) (k := k) (r := r) (b := b)
  cases heff with
  | idle => exact h
  | blocked => exact hwrite none
  | failed => exact hwrite none
  | short _ wn _ hne =>
    have hshort := hwrite (some wn)
    exact ⟨hshort.toBuf, Window.packed_advance hne, hshort.reads⟩
  | whole _ wn =>
    have hwhole := hwrite (some wn)
    exact ⟨hwhole.toBuf, Window.packed_rewind, hwhole.reads⟩

/-- Before the socket is served, its buffer and the state of the connection are those of the loop
head, where the events were chosen. -/
theorem stdinReady_keeps (h : stdinReady c k r = .ok (d, b)) : d.frBuf = c.frBuf ∧ d.cn = c.cn := by
  have heff := h ▸ stdinReady_effect (c := c) (k := k) (r := r)
  cases heff <;> exact ⟨rfl, rfl⟩

theorem buffers_iteration (hs : Streams c) (h : Buffers c) (hk : Requested c k) :
    Buffers (headOf (iteration c k)) := by
  apply iteration_invariant hs ?_ ?_ ?_ h
  · intro r hr
    exact buffers_stdinReady hs h fun hp => (stdin_asked hk hr hp).2
  · intro r d b hr hd hs' h'
    obtain ⟨hfr, hcn⟩ := stdinReady_keeps hd
    refine buffers_fdReady hs' h' ?_
    rw [hfr, hcn]
    exact fd_asked hk hr
  · intro c r b h'
    exact buffers_stdoutReady h'

theorem buffers_reachable (h : (system.restrict Requested).Reachable c) : Buffers c :=
  requested_invariant (fun _ => buffers_initial) (fun _ _ hs hk hc => buffers_iteration hs hc hk) h

/-- The loop waits for bytes from the socket, or for room to write those it has. -/
def Receiving (c : Client) : Prop := (events c).fd.pollin = true ∨ (events c).stdout.pollout = true

theorem receiving (h : c.frBuf.Packed) (hcn : c.cn ≠ -1) : Receiving c := by
  unfold Receiving
  rw [events, if_neg hcn]
  by_cases hlt : c.frBuf.eptr < tcpSendBuf
  · exact .inl (decide_eq_true hlt)
  · have hfull : c.frBuf.eptr ≠ 0 := by
      unfold tcpSendBuf at hlt
      omega
    exact .inr (decide_eq_true (h.sptr_ne hfull))

/-- The client stays connected. -/
theorem connected_iteration (h : c.cn ≠ -1) : (headOf (iteration c k)).cn ≠ -1 := by
  apply iteration_preserves (P := fun c => c.cn ≠ -1)
  · intro r hr
    have heff := stdinReady_effect (c := c) (k := k) (r := r)
    generalize stdinReady c k r = o at heff
    cases heff <;> exact h
  · intro r d b _ _ hd
    have heff := fdReady_effect (c := d) (k := k) (r := r) (b := b)
    generalize fdReady d k r b = o at heff
    cases heff with
    | connected => simp [clientOf]
    | _ => exact hd
  · intro d r b hd
    have heff := stdoutReady_effect (c := d) (k := k) (r := r) (b := b)
    generalize stdoutReady d k r b = o at heff
    cases heff <;> exact hd
  · exact h

theorem connected_run {ks : List Answers} (h : (system.restrict Requested).Run c ks d)
    (hcn : c.cn ≠ -1) : d.cn ≠ -1 := by
  apply System.run_invariant (P := fun c => c.cn ≠ -1) ?_ h hcn
  rintro c k d ⟨-, hd⟩ hc
  have hit := connected_iteration (k := k) hc
  rw [hd] at hit
  exact hit

/-- At every loop head the pointers of each buffer are in order, within it, and equal only at its
beginning. Every read so far, and every read of the iteration in which the loop is left, was for at
least one byte. From the time it is connected on, the loop waits for the socket or for stdout. -/
theorem buffers_sound (h : (system.restrict Requested).Reachable c) :
    (c.toBuf.sptr ≤ c.toBuf.eptr ∧ c.toBuf.eptr ≤ 1024) ∧
      (c.frBuf.sptr ≤ c.frBuf.eptr ∧ c.frBuf.eptr ≤ 512) ∧
      (c.toBuf.sptr = c.toBuf.eptr → c.toBuf.sptr = 0 ∧ c.toBuf.eptr = 0) ∧
      (c.frBuf.sptr = c.frBuf.eptr → c.frBuf.sptr = 0 ∧ c.frBuf.eptr = 0) ∧
      ReadsPositive c.calls ∧
      (∀ k l, Requested c k → iteration c k = .error l → ReadsPositive l.client.calls) ∧
      (c.cn ≠ -1 → ∀ ks d, (system.restrict Requested).Run c ks d → Receiving d) := by
  have hs := streams_reachable (System.restrict_reachable h)
  have hc := buffers_reachable h
  refine ⟨⟨hs.outward.le_eptr, hs.outward.le_cap⟩, ⟨hs.inward.le_eptr, hs.inward.le_cap⟩,
    hc.toBuf.rewound, hc.frBuf.rewound, hc.reads, ?_, ?_⟩
  · intro k l hk hl
    have hit := buffers_iteration hs hc hk
    rw [hl] at hit
    exact hit.reads
  · intro hcn ks d hrun
    obtain ⟨c₀, ks₀, hinit, hrun₀⟩ := h
    have hd := buffers_reachable ⟨c₀, ks₀ ++ ks, hinit, hrun₀.append hrun⟩
    exact receiving hd.frBuf (connected_run hrun hcn)

set_option maxRecDepth 4096 in
/-- The socket fills the buffer, of which stdout takes one byte: the loop asks for stdout only. -/
theorem buffers_sound_full :
    ∃ c : Client, (system.restrict Requested).Reachable c ∧ c.frBuf.eptr = 512 ∧
      (events c).fd.pollin = false ∧ c.frBuf.sptr ≤ c.frBuf.eptr ∧
      ReadsPositive c.calls ∧ Receiving c := by
  let k : Answers :=
    { Answers.quiet (.ready ⟨.none, ⟨true, false⟩, .none⟩) with
      readFd := fun n => .bytes (List.replicate n 0) (List.length_replicate).le
      writeStdout := fun n => if h : 1 ≤ n then .count 1 h else .error EWOULDBLOCK }
  have hr : ∃ c : Client, (system.restrict Requested).Reachable c ∧ c.cn = 0 ∧
      c.frBuf.eptr = 512 ∧ (events c).fd.pollin = false := by
    refine ⟨_, ⟨.start 0, [k], .inl rfl, .stepL ⟨?_, rfl⟩ .refl⟩, rfl, rfl, rfl⟩
    rintro r ⟨⟩
    decide
  obtain ⟨c, hc, hcn, hfull, hoff⟩ := hr
  obtain ⟨-, ⟨hle, -⟩, -, -, hreads, -, hreceiving⟩ := buffers_sound hc
  have hne : c.cn ≠ -1 := by simp [hcn]
  exact ⟨c, hc, hfull, hoff, hle, hreads, hreceiving hne [] c .refl⟩

end UnixCodes.NoBlockingTcpClient
