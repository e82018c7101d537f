import UnixCodes.NoBlockingTcpClient.Buffers
import UnixCodes.NoBlockingTcpClient.HalfClose
import UnixCodes.NoBlockingTcpClient.Peer

/-! The client at its server: both loops and the reader of stdout take their steps in any order, and
every one of them brings the bytes nearer to the end. -/
namespace UnixCodes.NoBlockingTcpClient

open Posix ByteStream Transition

variable {c d : Client} {k : Answers} {r : PollSet} {b : Bool} {l : Left} {x y : Call} {n : ℕ}
  {calls xs ys zs : List Call} {z : Capacity} {s t : Outside} {e : Event} {es : List Event}
  {input : List UInt8}

/-- The connection is made, and no call fails but for want of bytes or of room. -/
structure Answers.Working (k : Answers) : Prop where
  poll : ∀ e, k.poll = .error e → e = EINTR
  soError : k.soError = 0
  writeFd : ∀ n e, k.writeFd n = .error e → e = EWOULDBLOCK
  writeStdout : ∀ n e, k.writeStdout n = .error e → e = EWOULDBLOCK

def Outside.Readable (s : Outside) : Prop := s.incoming ≠ [] ∨ s.closed = true

/-- `poll` reports what it is asked for, and only where a call would not block. -/
structure Truthful (z : Capacity) (s : Outside) (c : Client) (k : Answers) : Prop where
  requested : Requested c k
  readable : ∀ r, k.poll = .ready r → c.cn ≠ -1 → r.fd.pollin = true → s.Readable
  writable : ∀ r, k.poll = .ready r → c.cn ≠ -1 → r.fd.pollout = true →
    s.outgoing.length < z.outgoing
  stdout : ∀ r, k.poll = .ready r → r.stdout.pollout = true → s.stdout.length < z.stdout

/-- The client, why it has left its loop if it has, and what lies beyond its descriptors. -/
structure Session where
  client : Client
  left : Option Why
  outside : Outside

inductive Session.Action
  | client (k : Answers)
  | outside (e : Event)

def whyOf : Except Left Client → Option Why
  | .ok _ => none
  | .error l => some l.why

/-- An iteration makes its calls one by one, and the others do not wait in the meantime. -/
inductive Session.Step (z : Capacity) : Session → Session.Action → Session → Prop
  | client {s : Session} {k : Answers} {es : List Event} {t : Outside} (hl : s.left = none)
      (hk : k.Working) (hp : Truthful z s.outside s.client k)
      (hes : (NoBlockingTcpClient.outside z).Run s.outside es t)
      (hcalls : (headOf (iteration s.client k)).calls = s.client.calls ++ made es) :
      Step z s (.client k) ⟨headOf (iteration s.client k), whyOf (iteration s.client k), t⟩
  | outside {s : Session} {e : Event} {t : Outside} (he : e.made = none)
      (hs : Outside.Step z s.outside e t) : Step z s (.outside e) { s with outside := t }

def session (z : Capacity) (input : List UInt8) : System Session Session.Action where
  Initial s := Initial s.client ∧ s.left = none ∧ s.outside = .start input
  Step := Session.Step z

/-- A `poll` that times out or is interrupted changes nothing. -/
def Session.Useful (_ : Session) (a : Session.Action) : Prop :=
  ∀ k, a = .client k → ∃ r, k.poll = .ready r ∧
    (r.stdin.pollin = true ∨ r.fd.pollin = true ∨ r.fd.pollout = true ∨ r.stdout.pollout = true)

/-- One after the other in the life of the client. -/
structure Extends (c d : Client) : Prop where
  calls : c.calls <+: d.calls
  stdineof : c.stdineof = true → d.stdineof = true
  cn : c.cn ≠ -1 → d.cn ≠ -1

theorem Extends.refl : Extends c c := ⟨List.prefix_rfl, id, id⟩

theorem Extends.trans {c' : Client} (h : Extends c d) (h' : Extends d c') : Extends c c' :=
  ⟨h.calls.trans h'.calls, h'.stdineof ∘ h.stdineof, h'.cn ∘ h.cn⟩

theorem extends_log : Extends c (c.log x) := ⟨List.prefix_append _ _, id, id⟩

theorem extends_stdinReady : Extends c (clientOf (stdinReady c k r)) := by
  generalize ho : stdinReady c k r = o
  have heff := ho ▸ stdinReady_effect (c := c) (k := k) (r := r)
  cases heff with
  | idle => exact .refl
  | blocked | failed => exact extends_log
  | eofEmpty =>
    refine Extends.trans ?_ extends_log
    exact ⟨List.prefix_append _ _, fun _ => rfl, id⟩
  | eofPending => exact ⟨List.prefix_append _ _, fun _ => rfl, id⟩
  | data => exact ⟨List.prefix_append _ _, id, id⟩

theorem extends_fdReady : Extends c (clientOf (fdReady c k r b)) := by
  generalize ho : fdReady c k r b = o
  have heff := ho ▸ fdReady_effect (c := c) (k := k) (r := r) (b := b)
  cases heff with
  | idle | refused => exact .refl
  | connected => exact ⟨List.prefix_rfl, id, fun _ => by simp [clientOf]⟩
  | readBlocked | readFailed | eof | writeBlocked | writeFailed => exact extends_log
  | data | short | whole => exact ⟨List.prefix_append _ _, id, id⟩
  | wholeEof =>
    refine Extends.trans ?_ extends_log
    exact ⟨List.prefix_append _ _, id, id⟩

theorem extends_stdoutReady : Extends c (headOf (stdoutReady c k r b)) := by
  generalize ho : stdoutReady c k r b = o
  have heff := ho ▸ stdoutReady_effect (c := c) (k := k) (r := r) (b := b)
  cases heff with
  | idle => exact .refl
  | blocked | failed => exact extends_log
  | short | whole => exact ⟨List.prefix_append _ _, id, id⟩

/-- After the socket there is only stdout. -/
theorem iteration_after_fd (hr : k.poll = .ready r) (h : stdinReady c k r = .ok (d, b)) :
    Extends (clientOf (fdReady d k r b)) (headOf (iteration c k)) := by
  simp only [iteration, hr, h]
  cases fdReady d k r b with
  | error l => exact .refl
  | ok p => exact extends_stdoutReady

theorem iteration_after_stdin (hr : k.poll = .ready r) :
    Extends (clientOf (stdinReady c k r)) (headOf (iteration c k)) := by
  cases ho : stdinReady c k r with
  | error l =>
    simp only [iteration, hr, ho]
    exact .refl
  | ok p => exact extends_fdReady.trans (iteration_after_fd hr ho)

/-- What a stage has called is the first of what the iteration has called. -/
theorem called {c' : Client} (hcall : c.calls ++ ys <+: c'.calls) (hafter : Extends c' d)
    (hd : d.calls = c.calls ++ xs) : ys <+: xs := by
  have hall := hcall.trans hafter.calls
  rw [hd] at hall
  exact (List.prefix_append_right_inj _).mp hall

/-- A call of the client is a step outside, with what `P` the events before it keep. -/
theorem made_step {P : Outside → Prop} (hr : (outside z).Run s es t) (hm : made es = ys ++ x :: zs)
    (hstep : ∀ s e t, Outside.Step z s e t → (∀ y, e.made = some y → y ∈ ys) → P s → P t)
    (hs : P s) : ∃ s' t', P s' ∧ Outside.Step z s' (.call x) t' := by
  obtain ⟨s', e, t', hp, he, hs'⟩ := hr.exists_step hstep hm hs
  cases e with
  | call y =>
    cases he
    exact ⟨s', t', hp, hs'⟩
  | serverRead | serverWrite | serverClose | drain => cases he

/-- A file always has an answer. -/
theorem stdin_answered (hr : (outside z).Run s es t) (hx : Call.read .stdin n none ∈ made es) :
    False := by
  obtain ⟨ys, zs, hm⟩ := List.append_of_mem hx
  obtain ⟨s', t', -, hs⟩ :=
    made_step (P := fun _ => True) hr hm (fun _ _ _ _ _ _ => trivial) trivial
  cases hs

/-- Only the client takes bytes that have come back. -/
theorem readable_step (hs : Outside.Step z s e t)
    (hno : ∀ n got, e.made ≠ some (.read .sock n got)) (h : s.Readable) : t.Readable := by
  cases hs with
  | readSock => exact absurd rfl (hno _ _)
  | serverWrite _ hne => exact .inl (by simp [hne])
  | serverClose => exact .inr rfl
  | _ => exact h

theorem socket_answered (hr : (outside z).Run s es t) (h : s.Readable)
    (hm : made es = ys ++ .read .sock n none :: zs)
    (hno : ∀ n got, Call.read .sock n got ∉ ys) : False := by
  have hstep (s e t) (hs : Outside.Step z s e t) (hmem : ∀ y, e.made = some y → y ∈ ys) :
      s.Readable → t.Readable := readable_step hs fun n got he => hno n got (hmem _ he)
  obtain ⟨s', t', hp, hs⟩ := made_step hr hm hstep h
  cases hs with
  | readSockBlocked hin hopen => rcases hp with hp | hp <;> simp_all

/-- While the client has made no call there is no less room than `poll` has found. -/
theorem room_step (hs : Outside.Step z s e t) (he : ∀ y, e.made = some y → y ∈ []) :
    t.outgoing.length ≤ s.outgoing.length ∧ t.stdout.length ≤ s.stdout.length := by
  cases hs with
  | serverRead _ hout | drain hout => simp [hout]
  | serverWrite | serverClose => exact ⟨le_rfl, le_rfl⟩
  | _ => exact absurd (he _ rfl) List.not_mem_nil

theorem write_answered {buf : List UInt8} {accepted : Option ℕ} (hr : (outside z).Run s es t)
    (h : s.outgoing.length < z.outgoing) (hm : made es = .write .sock buf accepted :: zs) :
    ∃ wn, 0 < wn ∧ wn ≤ buf.length ∧ accepted = some wn := by
  have hm : made es = [] ++ .write .sock buf accepted :: zs := hm
  obtain ⟨s', t', hp, hs⟩ := made_step (P := fun s => s.outgoing.length < z.outgoing) hr hm
    (fun _ _ _ hs hmem hp => (room_step hs hmem).1.trans_lt hp) h
  cases hs with
  | writeSock hpos hle => exact ⟨_, hpos, hle, rfl⟩
  | writeSockBlocked hfull => omega

theorem stdout_answered {buf : List UInt8} {accepted : Option ℕ} (hr : (outside z).Run s es t)
    (h : s.stdout.length < z.stdout) (hm : made es = .write .stdout buf accepted :: zs) :
    ∃ wn, 0 < wn ∧ wn ≤ buf.length ∧ accepted = some wn := by
  have hm : made es = [] ++ .write .stdout buf accepted :: zs := hm
  obtain ⟨s', t', hp, hs⟩ := made_step (P := fun s => s.stdout.length < z.stdout) hr hm
    (fun _ _ _ hs hmem hp => (room_step hs hmem).2.trans_lt hp) h
  cases hs with
  | writeStdout hpos hle => exact ⟨_, hpos, hle, rfl⟩
  | writeStdoutBlocked hfull => omega

/-- The bytes that the calls have moved. -/
def moved (xs : List Call) : ℕ :=
  (received .stdin xs).length + (received .sock xs).length + (sent .sock xs).length +
    (sent .stdout xs).length

theorem moved_le (h : ys <+: xs) : moved ys ≤ moved xs := by
  obtain ⟨zs, rfl⟩ := h
  simp [moved]
  omega

/-- The steps of the bytes in the buffers. -/
def Client.pending (c : Client) : ℕ := 6 * c.toBuf.pending.length + 2 * c.frBuf.pending.length

theorem pending_moved (hc : Streams c) (hd : Streams d) (hcalls : d.calls = c.calls ++ xs) :
    d.pending + put xs + moved xs = c.pending + drawn xs := by
  have hto := congrArg List.length hd.outward.stream
  have hto' := congrArg List.length hc.outward.stream
  have hfr := congrArg List.length hd.inward.stream
  have hfr' := congrArg List.length hc.inward.stream
  rw [hcalls] at hto hfr
  simp only [sent_append, received_append, List.length_append] at hto hto' hfr hfr'
  unfold Client.pending put moved drawn
  omega

/-- The end of stdin and the connection are still to come. -/
def Client.waits (c : Client) : ℕ :=
  (if c.stdineof = true then 0 else 1) + if c.cn = -1 then 1 else 0

theorem Extends.waits_le (h : Extends c d) : d.waits ≤ c.waits := by
  have hst := h.stdineof
  have hcn := h.cn
  unfold Client.waits
  grind

theorem Extends.waits_lt (h : Extends c d)
    (hd : c.stdineof = false ∧ d.stdineof = true ∨ c.cn = -1 ∧ d.cn ≠ -1) :
    d.waits < c.waits := by
  have hst := h.stdineof
  have hcn := h.cn
  unfold Client.waits
  grind

/-- The steps that are left. -/
def Session.rank (s : Session) : ℕ :=
  s.outside.left + s.client.pending + s.client.waits + if s.left = none then 1 else 0

/-- Whatever `poll` has reported, something comes of it: bytes move, stdin is at its end, the
connection is there or the loop is left. -/
def Progress (c d : Client) (xs : List Call) (left : Option Why) : Prop :=
  0 < moved xs ∨ d.waits < c.waits ∨ left ≠ none

/-- A stage makes the call that `poll` has reported for it. -/
theorem stdinReady_called (hp : r.stdin.pollin = true) :
    ∃ n got, c.calls ++ [.read .stdin n got] <+: (clientOf (stdinReady c k r)).calls ∧
      (got = some [] → (clientOf (stdinReady c k r)).stdineof = true) := by
  refine ⟨tcpRecvBuf - c.toBuf.eptr, ?_⟩
  unfold stdinReady
  rw [if_pos hp]
  split
  · refine ⟨none, ?_, by simp⟩
    dsimp only
    split <;> exact List.prefix_rfl
  · refine ⟨some [], ?_, ?_⟩
    · dsimp only [clientOf]
      split
      · exact List.prefix_append _ _
      · exact List.prefix_rfl
    · intro _
      dsimp only [clientOf]
      split <;> rfl
  · exact ⟨_, List.prefix_rfl, by simp⟩

theorem fdReady_read (hp : r.fd.pollin = true) (hcn : c.cn ≠ -1) :
    ∃ n got, c.calls ++ [.read .sock n got] <+: (clientOf (fdReady c k r b)).calls ∧
      (got = some [] → ∃ l, fdReady c k r b = .error l) := by
  refine ⟨tcpSendBuf - c.frBuf.eptr, ?_⟩
  have hread : fdReady c k r b = fdReadable c k := by simp [fdReady, hp, hcn]
  rw [hread]
  unfold fdReadable
  split
  · refine ⟨none, ?_, by simp⟩
    dsimp only
    split <;> exact List.prefix_rfl
  · exact ⟨some [], List.prefix_rfl, fun _ => ⟨_, rfl⟩⟩
  · exact ⟨_, List.prefix_rfl, by simp⟩

theorem fdReady_write (hin : r.fd.pollin = false) (hout : r.fd.pollout = true) (hcn : c.cn ≠ -1)
    (hlt : c.toBuf.sptr < c.toBuf.eptr) :
    ∃ accepted, c.calls ++ [.write .sock c.toBuf.pending accepted] <+:
      (clientOf (fdReady c k r b)).calls := by
  have hwrite : fdReady c k r b = fdWritable c k := by simp [fdReady, hin, hout, hcn]
  rw [hwrite]
  unfold fdWritable
  rw [if_pos (by omega)]
  split
  · refine ⟨none, ?_⟩
    dsimp only
    split <;> exact List.prefix_rfl
  · rename_i wn _ _
    refine ⟨some wn, ?_⟩
    dsimp only
    split
    · dsimp only [clientOf]
      split
      · exact List.prefix_append _ _
      · exact List.prefix_rfl
    · exact List.prefix_rfl

theorem stdoutReady_called (hout : r.stdout.pollout = true) (hlt : c.frBuf.sptr < c.frBuf.eptr) :
    ∃ accepted, c.calls ++ [.write .stdout c.frBuf.pending accepted] <+:
      (headOf (stdoutReady c k r b)).calls := by
  unfold stdoutReady
  rw [if_pos (by simp [hout]), if_neg (by omega)]
  split
  · refine ⟨none, ?_⟩
    dsimp only
    split <;> exact List.prefix_rfl
  · rename_i wn _ _
    refine ⟨some wn, ?_⟩
    dsimp only [headOf]
    split <;> exact List.prefix_rfl

theorem moved_read {f : Fd} {u : UInt8} {bs : List UInt8} (hf : f ≠ .stdout) :
    0 < moved [.read f n (some (u :: bs))] := by
  cases f with
  | stdin | sock => simp [moved, Call.bytesRead, Call.bytesWritten]
  | stdout => exact absurd rfl hf

theorem moved_write {f : Fd} {buf : List UInt8} {wn : ℕ} (hf : f ≠ .stdin) (hpos : 0 < wn)
    (hle : wn ≤ buf.length) : 0 < moved [.write f buf (some wn)] := by
  cases f with
  | stdin => exact absurd rfl hf
  | sock | stdout =>
    simp [moved, Call.bytesRead, Call.bytesWritten]
    omega

theorem progress_stdin (hr : k.poll = .ready r) (hk : Requested c k) (hp : r.stdin.pollin = true)
    (hes : (outside z).Run s es t)
    (hcalls : (headOf (iteration c k)).calls = c.calls ++ made es) :
    Progress c (headOf (iteration c k)) (made es) (whyOf (iteration c k)) := by
  obtain ⟨n, got, hcall, heof⟩ := stdinReady_called (c := c) (k := k) hp
  have hafter := iteration_after_stdin (c := c) hr
  have hpre := called hcall hafter hcalls
  cases got with
  | none => exact (stdin_answered hes (hpre.subset (List.mem_singleton_self _))).elim
  | some bs =>
    cases bs with
    | nil =>
      have hext := extends_stdinReady.trans hafter
      exact .inr (.inl (hext.waits_lt
        (.inl ⟨(stdin_asked hk hr hp).1, hafter.stdineof (heof rfl)⟩)))
    | cons u bs => exact .inl ((moved_read (by simp)).trans_le (moved_le hpre))

/-- The way out of the loop is at the end of the peer's stream. -/
theorem progress_read (hp : Truthful z s c k) (hr : k.poll = .ready r)
    (hin : stdinReady c k r = .ok (c, false)) (hcn : c.cn ≠ -1) (hread : r.fd.pollin = true)
    (hes : (outside z).Run s es t)
    (hcalls : (headOf (iteration c k)).calls = c.calls ++ made es) :
    Progress c (headOf (iteration c k)) (made es) (whyOf (iteration c k)) := by
  obtain ⟨n, got, hcall, heof⟩ := fdReady_read (k := k) (b := false) hread hcn
  obtain ⟨zs, hm⟩ := called hcall (iteration_after_fd hr hin) hcalls
  cases got with
  | none =>
    have hfirst : made es = [] ++ .read .sock n none :: zs := hm.symm
    exact (socket_answered hes (hp.readable r hr hcn hread) hfirst (by simp)).elim
  | some bs =>
    cases bs with
    | nil =>
      obtain ⟨l, hl⟩ := heof rfl
      refine .inr (.inr ?_)
      simp [iteration, hr, hin, hl, whyOf]
    | cons u bs => exact .inl ((moved_read (by simp)).trans_le (moved_le ⟨zs, hm⟩))

theorem progress_write (hs : Streams c) (hp : Truthful z s c k) (hr : k.poll = .ready r)
    (hin : stdinReady c k r = .ok (c, false)) (hcn : c.cn ≠ -1) (hread : r.fd.pollin = false)
    (hwrite : r.fd.pollout = true) (hes : (outside z).Run s es t)
    (hcalls : (headOf (iteration c k)).calls = c.calls ++ made es) :
    Progress c (headOf (iteration c k)) (made es) (whyOf (iteration c k)) := by
  have hlt : c.toBuf.sptr < c.toBuf.eptr := by
    have hne := (hp.requested r hr).2.2.2.1 hwrite
    rw [events, if_neg hcn] at hne
    exact lt_of_le_of_ne hs.outward.le_eptr (of_decide_eq_true hne)
  obtain ⟨accepted, hcall⟩ := fdReady_write (k := k) (b := false) hread hwrite hcn hlt
  obtain ⟨zs, hm⟩ := called hcall (iteration_after_fd hr hin) hcalls
  obtain ⟨wn, hpos, hle, rfl⟩ := write_answered hes (hp.writable r hr hcn hwrite) hm.symm
  exact .inl ((moved_write (by simp) hpos hle).trans_le (moved_le ⟨zs, hm⟩))

theorem progress_connect (hk : k.Working) (hr : k.poll = .ready r)
    (hin : stdinReady c k r = .ok (c, false)) (hcn : c.cn = -1)
    (hbit : r.fd.pollin = true ∨ r.fd.pollout = true) :
    Progress c (headOf (iteration c k)) xs (whyOf (iteration c k)) := by
  have hafter := iteration_after_fd hr hin
  have hext := extends_fdReady.trans hafter
  have hdone : fdReady c k r false = .ok ({ c with cn := 0 }, false) := by
    rcases hbit with hbit | hbit <;> simp [fdReady, hbit, hcn, hk.soError]
  rw [hdone] at hafter
  exact .inr (.inl (hext.waits_lt (.inr ⟨hcn, hafter.cn (by simp [clientOf])⟩)))

theorem progress_stdout (hs : Streams c) (hp : Truthful z s c k) (hr : k.poll = .ready r)
    (hin : stdinReady c k r = .ok (c, false)) (hfd : fdReady c k r false = .ok (c, false))
    (hcn : c.cn ≠ -1) (hout : r.stdout.pollout = true) (hes : (outside z).Run s es t)
    (hcalls : (headOf (iteration c k)).calls = c.calls ++ made es) :
    Progress c (headOf (iteration c k)) (made es) (whyOf (iteration c k)) := by
  have hlt : c.frBuf.sptr < c.frBuf.eptr := by
    have hne := (hp.requested r hr).2.2.2.2.2 hout
    rw [events, if_neg hcn] at hne
    exact lt_of_le_of_ne hs.inward.le_eptr (of_decide_eq_true hne)
  obtain ⟨accepted, hcall⟩ := stdoutReady_called (k := k) (b := false) hout hlt
  have hhead : headOf (iteration c k) = headOf (stdoutReady c k r false) := by
    simp [iteration, hr, hin, hfd]
  obtain ⟨zs, hm⟩ := called hcall (hhead ▸ .refl) hcalls
  obtain ⟨wn, hpos, hle, rfl⟩ := stdout_answered hes (hp.stdout r hr hout) hm.symm
  exact .inl ((moved_write (by simp) hpos hle).trans_le (moved_le ⟨zs, hm⟩))

theorem useful_progress (hs : Streams c) (hk : k.Working) (hp : Truthful z s c k)
    (hr : k.poll = .ready r)
    (hbit : r.stdin.pollin = true ∨ r.fd.pollin = true ∨ r.fd.pollout = true ∨
      r.stdout.pollout = true) (hes : (outside z).Run s es t)
    (hcalls : (headOf (iteration c k)).calls = c.calls ++ made es) :
    Progress c (headOf (iteration c k)) (made es) (whyOf (iteration c k)) := by
  by_cases hstdin : r.stdin.pollin = true
  · exact progress_stdin hr hp.requested hstdin hes hcalls
  have hin : stdinReady c k r = .ok (c, false) := by simp [stdinReady, hstdin]
  by_cases hcn : c.cn = -1
  · refine progress_connect hk hr hin hcn ?_
    rcases hbit with hbit | hbit | hbit | hbit
    · exact absurd hbit hstdin
    · exact .inl hbit
    · exact .inr hbit
    · have hno := (hp.requested r hr).2.2.2.2.2 hbit
      simp [events, hcn] at hno
  by_cases hread : r.fd.pollin = true
  · exact progress_read hp hr hin hcn hread hes hcalls
  by_cases hwrite : r.fd.pollout = true
  · exact progress_write hs hp hr hin hcn (Bool.eq_false_iff.mpr hread) hwrite hes hcalls
  have hfd : fdReady c k r false = .ok (c, false) := by simp [fdReady, hread, hwrite]
  exact progress_stdout hs hp hr hin hfd hcn (by simp_all) hes hcalls

end UnixCodes.NoBlockingTcpClient
