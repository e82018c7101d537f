import UnixCodes.KqueueServer.Drain
import UnixCodes.NoBlockingTcpClient.ByteStreams

/-! The other ends of the client's descriptors: a file on stdin, the read loop of `server.c` behind
the connection, and a pipe on stdout. -/
namespace UnixCodes.NoBlockingTcpClient

open Posix Transition

variable {f : Fd} {x : Call} {calls xs ys zs : List Call} {input : List UInt8}

/-- The bytes that the kernel holds on each way. -/
structure Capacity where
  outgoing : ℕ
  incoming : ℕ
  stdout : ℕ
  outgoing_pos : 0 < outgoing
  incoming_pos : 0 < incoming
  stdout_pos : 0 < stdout

/-- One turn of the server's loop: what it has read into its buffer and writes back. -/
structure Turn where
  bytes : List UInt8
  ne : bytes ≠ []
  le : bytes.length ≤ KqueueServer.bufSize

/-- `input` is what stdin has yet to deliver, `output` what has come out of the pipe behind stdout.
The server has `held` what it has read and not yet written; it has `closed` the connection after the
end of the client's stream, which is `shut`. -/
structure Outside where
  input : List UInt8
  outgoing : List UInt8
  held : List UInt8
  incoming : List UInt8
  stdout : List UInt8
  output : List UInt8
  turns : List Turn
  shut : Bool
  closed : Bool

/-- A call of the client, a call of the server, or what the reader of stdout takes. -/
inductive Event
  | call (x : Call)
  | serverRead
  | serverWrite
  | serverClose
  | drain

def Event.made : Event → Option Call
  | .call x => some x
  | _ => none

/-- The client's calls would block only while there is nothing to read, or no room for what is
written. The server's calls do block, and its `write` goes on until all of the turn is written. -/
inductive Outside.Step (z : Capacity) : Outside → Event → Outside → Prop
  | readStdin {s : Outside} {n : ℕ} {bs rest : List UInt8} (hin : s.input = bs ++ rest)
      (hle : bs.length ≤ n) (heof : bs = [] → n = 0 ∨ s.input = []) :
      Step z s (.call (.read .stdin n (some bs))) { s with input := rest }
  | readSock {s : Outside} {n : ℕ} {bs rest : List UInt8} (hin : s.incoming = bs ++ rest)
      (hle : bs.length ≤ n) (heof : bs = [] → n = 0 ∨ s.incoming = [] ∧ s.closed = true) :
      Step z s (.call (.read .sock n (some bs))) { s with incoming := rest }
  | readSockBlocked {s : Outside} {n : ℕ} (hin : s.incoming = []) (hopen : s.closed = false) :
      Step z s (.call (.read .sock n none)) s
  | writeSock {s : Outside} {buf : List UInt8} {wn : ℕ} (hpos : 0 < wn) (hle : wn ≤ buf.length)
      (hroom : s.outgoing.length + wn ≤ z.outgoing) (hshut : s.shut = false) :
      Step z s (.call (.write .sock buf (some wn))) { s with outgoing := s.outgoing ++ buf.take wn }
  | writeSockBlocked {s : Outside} {buf : List UInt8} (hfull : z.outgoing ≤ s.outgoing.length)
      (hshut : s.shut = false) : Step z s (.call (.write .sock buf none)) s
  | writeStdout {s : Outside} {buf : List UInt8} {wn : ℕ} (hpos : 0 < wn) (hle : wn ≤ buf.length)
      (hroom : s.stdout.length + wn ≤ z.stdout) :
      Step z s (.call (.write .stdout buf (some wn))) { s with stdout := s.stdout ++ buf.take wn }
  | writeStdoutBlocked {s : Outside} {buf : List UInt8} (hfull : z.stdout ≤ s.stdout.length) :
      Step z s (.call (.write .stdout buf none)) s
  | shutdown {s : Outside} : Step z s (.call .shutdown) { s with shut := true }
  | serverRead {s : Outside} {k : Turn} {rest : List UInt8} (hheld : s.held = [])
      (hout : s.outgoing = k.bytes ++ rest) :
      Step z s .serverRead { s with outgoing := rest, held := k.bytes, turns := s.turns ++ [k] }
  | serverWrite {s : Outside} {bs rest : List UInt8} (hheld : s.held = bs ++ rest) (hne : bs ≠ [])
      (hroom : s.incoming.length + bs.length ≤ z.incoming) :
      Step z s .serverWrite { s with held := rest, incoming := s.incoming ++ bs }
  /- `read` has returned 0. -/
  | serverClose {s : Outside} (hheld : s.held = []) (hshut : s.shut = true)
      (hout : s.outgoing = []) (hopen : s.closed = false) :
      Step z s .serverClose { s with closed := true }
  | drain {s : Outside} {bs rest : List UInt8} (hpipe : s.stdout = bs ++ rest) (hne : bs ≠ []) :
      Step z s .drain { s with stdout := rest, output := s.output ++ bs }

/-- No call has been made. -/
def Outside.start (input : List UInt8) : Outside :=
  ⟨input, [], [], [], [], [], [], false, false⟩

def outside (z : Capacity) : System Outside Event where
  Initial s := ∃ input, s = .start input
  Step := Outside.Step z

variable {z : Capacity} {s t : Outside} {e : Event} {es : List Event}

/-- The answers to the server's read loop in a turn; its `write` blocks until all is written. -/
def Turn.answers (k : Turn) : KqueueServer.Answers :=
  ⟨.bytes k.bytes k.le, fun n => .count n le_rfl⟩

/-- The answers to its last turn. -/
def endOfFile : KqueueServer.Answers := ⟨.bytes [] (Nat.zero_le _), fun n => .count n le_rfl⟩

/-- The answers that the server's read loop has had. -/
def Outside.served (s : Outside) : List KqueueServer.Answers :=
  s.turns.map Turn.answers ++ if s.closed then [endOfFile] else []

/-- With these answers the loop sends back what it has read, and is left at the end of file. -/
theorem serverRead_turns (ks : List Turn) :
    (KqueueServer.serverRead (ks.map Turn.answers ++ [endOfFile])).2 = .eof ∧
      KqueueServer.sent (KqueueServer.serverRead (ks.map Turn.answers ++ [endOfFile])).1 =
        ks.flatMap Turn.bytes := by
  unfold KqueueServer.serverRead
  rw [KqueueServer.serverDrain_eq]
  generalize (List.replicate KqueueServer.bufSize 0 : List UInt8) = buf
  induction ks generalizing buf with
  | nil =>
    rw [List.map_nil, List.nil_append, KqueueServer.noBlockDrain_eof rfl]
    exact ⟨rfl, rfl⟩
  | cons k ks ih =>
    have hne : k.answers.read ≠ .bytes [] (Nat.zero_le _) := by
      intro he
      injection he with hnil
      exact k.ne hnil
    obtain ⟨hexit, hsent⟩ := ih (KqueueServer.store buf k.answers.read)
    have htaken : (KqueueServer.store buf k.answers.read).take
        (KqueueServer.bytesRead k.answers.read).toNat = k.bytes := by
      rw [Turn.answers, KqueueServer.toNat_bytesRead]
      simp [KqueueServer.store]
    rw [List.map_cons, List.cons_append, KqueueServer.noBlockDrain_write hne]
    refine ⟨hexit, ?_⟩
    change (KqueueServer.store buf k.answers.read).take _ ++ KqueueServer.sent _ = _
    rw [hsent, List.flatMap_cons]
    exact congrArg (· ++ _) htaken

/-- What is outside is what the calls have left there. -/
structure Carried (input : List UInt8) (calls : List Call) (s : Outside) : Prop where
  stdin : received .stdin calls ++ s.input = input
  turns : s.turns.flatMap Turn.bytes ++ s.outgoing = sent .sock calls
  back : received .sock calls ++ s.incoming ++ s.held = s.turns.flatMap Turn.bytes
  stdout : s.output ++ s.stdout = sent .stdout calls

theorem carried_start : Carried input [] (.start input) := ⟨rfl, rfl, rfl, rfl⟩

theorem carried_step (hs : Outside.Step z s e t) (h : Carried input calls s) :
    Carried input (calls ++ e.made.toList) t := by
  obtain ⟨hstdin, hturns, hback, hstdout⟩ := h
  constructor
  · cases hs with
    | readStdin hin => simpa [Event.made, Call.bytesRead, hin] using hstdin
    | _ => simpa [Event.made, Call.bytesRead] using hstdin
  · cases hs with
    | writeSock =>
      rw [sent_append, ← hturns]
      simp [Event.made, Call.bytesWritten]
    | serverRead _ hout => simpa [Event.made, hout] using hturns
    | _ => simpa [Event.made, Call.bytesWritten] using hturns
  · cases hs with
    | readSock hin => simpa [Event.made, Call.bytesRead, hin] using hback
    | serverRead hheld =>
      rw [hheld, List.append_nil] at hback
      simp [Event.made, hback]
    | serverWrite hheld => simpa [Event.made, hheld] using hback
    | _ => simpa [Event.made, Call.bytesRead] using hback
  · cases hs with
    | writeStdout =>
      rw [sent_append, ← hstdout]
      simp [Event.made, Call.bytesWritten]
    | drain hpipe => simpa [Event.made, hpipe] using hstdout
    | _ => simpa [Event.made, Call.bytesWritten] using hstdout

/-- What an end of file that has been read, or the end of the client's stream, says. -/
structure Ended (calls : List Call) (s : Outside) : Prop where
  shut : s.shut = true ↔ Call.shutdown ∈ calls
  closed : s.closed = true → s.shut = true ∧ s.outgoing = [] ∧ s.held = []
  stdin : ∀ n, 0 < n → Call.read .stdin n (some []) ∈ calls → s.input = []
  sock : ∀ n, 0 < n → Call.read .sock n (some []) ∈ calls → s.incoming = [] ∧ s.closed = true

theorem ended_start : Ended [] (.start input) := by
  refine ⟨?_, ?_, ?_, ?_⟩ <;> simp [Outside.start]

/-- What is at its end stays there, through an event that does nothing to it. -/
theorem Ended.keep (h : Ended calls s) (hshut : t.shut = s.shut) (hclosed : t.closed = s.closed)
    (hin : s.input = [] → t.input = [])
    (hout : s.closed = true → t.outgoing = s.outgoing ∧ t.held = s.held ∧
      (s.incoming = [] → t.incoming = []))
    (hxs : Call.shutdown ∉ xs)
    (hstdin : ∀ n, 0 < n → Call.read .stdin n (some []) ∈ xs → s.input = [])
    (hsock : ∀ n, 0 < n → Call.read .sock n (some []) ∈ xs → s.incoming = [] ∧ s.closed = true) :
    Ended (calls ++ xs) t := by
  refine ⟨?_, ?_, ?_, ?_⟩
  · rw [hshut, h.shut, List.mem_append, or_iff_left hxs]
  · rw [hclosed, hshut]
    intro hc
    rw [(hout hc).1, (hout hc).2.1]
    exact h.closed hc
  · intro n hn hmem
    rcases List.mem_append.mp hmem with hmem | hmem
    · exact hin (h.stdin n hn hmem)
    · exact hin (hstdin n hn hmem)
  · intro n hn hmem
    rw [hclosed]
    rcases List.mem_append.mp hmem with hmem | hmem
    · obtain ⟨hnil, hc⟩ := h.sock n hn hmem
      exact ⟨(hout hc).2.2 hnil, hc⟩
    · obtain ⟨hnil, hc⟩ := hsock n hn hmem
      exact ⟨(hout hc).2.2 hnil, hc⟩

/-- After the end of the client's stream the server has nothing to do. -/
theorem Ended.idle (h : Ended calls s)
    (hs : s.shut = false ∨ s.outgoing ≠ [] ∨ s.held ≠ []) : s.closed = false := by
  apply Bool.eq_false_iff.mpr
  intro hc
  obtain ⟨hshut, hout, hheld⟩ := h.closed hc
  simp [hshut, hout, hheld] at hs

theorem ended_step (hs : Outside.Step z s e t) (h : Ended calls s) :
    Ended (calls ++ e.made.toList) t := by
  cases hs with
  | @readStdin n bs rest hin hle heof =>
    refine h.keep rfl rfl ?_ (fun _ => ⟨rfl, rfl, id⟩) ?_ ?_ ?_
    · intro hnil
      exact (List.append_eq_nil_iff.mp (hin.symm.trans hnil)).2
    · simp [Event.made]
    · intro m hm hmem
      obtain ⟨rfl, hbs⟩ : m = n ∧ [] = bs := by simpa [Event.made] using hmem
      exact (heof hbs.symm).resolve_left hm.ne'
    · simp [Event.made]
  | @readSock n bs rest hin hle heof =>
    refine h.keep rfl rfl id (fun _ => ⟨rfl, rfl, ?_⟩) ?_ ?_ ?_
    · intro hnil
      exact (List.append_eq_nil_iff.mp (hin.symm.trans hnil)).2
    · simp [Event.made]
    · simp [Event.made]
    · intro m hm hmem
      obtain ⟨rfl, hbs⟩ : m = n ∧ [] = bs := by simpa [Event.made] using hmem
      exact (heof hbs.symm).resolve_left hm.ne'
  | readSockBlocked | writeSockBlocked | writeStdout | writeStdoutBlocked | drain =>
    refine h.keep rfl rfl id (fun _ => ⟨rfl, rfl, id⟩) ?_ ?_ ?_ <;> simp [Event.made]
  | writeSock _ _ _ hshut =>
    have hopen := h.idle (.inl hshut)
    refine h.keep rfl rfl id ?_ ?_ ?_ ?_ <;> simp [Event.made, hopen]
  | shutdown =>
    refine ⟨by simp [Event.made], ?_, ?_, ?_⟩
    · intro hc
      exact ⟨rfl, (h.closed hc).2⟩
    · intro n hn hmem
      exact h.stdin n hn (by simpa [Event.made] using hmem)
    · intro n hn hmem
      exact h.sock n hn (by simpa [Event.made] using hmem)
  | @serverRead k rest hheld hout =>
    have hopen := h.idle (.inr (.inl (by simp [hout, k.ne])))
    refine h.keep rfl rfl id ?_ ?_ ?_ ?_ <;> simp [Event.made, hopen]
  | serverWrite hheld hne =>
    have hopen := h.idle (.inr (.inr (by simp [hheld, hne])))
    refine h.keep rfl rfl id ?_ ?_ ?_ ?_ <;> simp [Event.made, hopen]
  | serverClose hheld hshut hout hopen =>
    refine ⟨by simpa [Event.made] using h.shut, fun _ => ⟨hshut, hout, hheld⟩, ?_, ?_⟩
    · intro n hn hmem
      exact h.stdin n hn (by simpa [Event.made] using hmem)
    · intro n hn hmem
      exact ⟨(h.sock n hn (by simpa [Event.made] using hmem)).1, rfl⟩

/-- The steps that the bytes outside have before them, with those of the client. -/
def Outside.left (s : Outside) : ℕ :=
  7 * s.input.length + 5 * s.outgoing.length + 4 * s.held.length + 3 * s.incoming.length +
    s.stdout.length + if s.closed then 0 else 1

/-- What the calls take from there and what they bring. -/
def drawn (xs : List Call) : ℕ := 7 * (received .stdin xs).length + 3 * (received .sock xs).length

def put (xs : List Call) : ℕ := 5 * (sent .sock xs).length + (sent .stdout xs).length

theorem drawn_append : drawn (xs ++ ys) = drawn xs + drawn ys := by
  simp [drawn]
  omega

theorem put_append : put (xs ++ ys) = put xs + put ys := by
  simp [put]
  omega

theorem left_step_call (hs : Outside.Step z s (.call x) t) :
    t.left + drawn [x] = s.left + put [x] := by
  cases hs with
  | readStdin hin | readSock hin =>
    simp [Outside.left, drawn, put, Call.bytesRead, Call.bytesWritten, hin]
    omega
  | writeSock | writeStdout =>
    simp [Outside.left, drawn, put, Call.bytesRead, Call.bytesWritten]
    omega
  | _ => simp [Outside.left, drawn, put, Call.bytesRead, Call.bytesWritten]

/-- What the others do brings the bytes nearer to the end of the pipe. -/
theorem left_step_own (hs : Outside.Step z s e t) (he : e.made = none) : t.left < s.left := by
  cases hs with
  | @serverRead k rest hheld hout =>
    have hpos := List.length_pos_iff.mpr k.ne
    simp [Outside.left, hheld, hout]
    omega
  | serverWrite hheld hne =>
    have hpos := List.length_pos_iff.mpr hne
    simp [Outside.left, hheld]
    omega
  | serverClose _ _ _ hopen => simp [Outside.left, hopen]
  | drain hpipe hne =>
    have hpos := List.length_pos_iff.mpr hne
    simp [Outside.left, hpipe]
    omega
  | _ => cases he

theorem left_step (hs : Outside.Step z s e t) :
    t.left + drawn e.made.toList ≤ s.left + put e.made.toList := by
  cases he : e.made with
  | none => exact (left_step_own hs he).le
  | some x =>
    obtain rfl : e = .call x := by cases e <;> simp_all [Event.made]
    exact (left_step_call hs).le

/-- The calls of a run, in order. -/
def made (es : List Event) : List Call := es.filterMap Event.made

theorem made_cons : made (e :: es) = e.made.toList ++ made es := by
  cases e <;> rfl

theorem carried_run (hr : (outside z).Run s es t) (h : Carried input calls s) :
    Carried input (calls ++ made es) t := by
  induction hr generalizing calls with
  | refl => rwa [made, List.filterMap_nil, List.append_nil]
  | stepL hs _ ih =>
    rw [made_cons, ← List.append_assoc]
    exact ih (carried_step hs h)

theorem ended_run (hr : (outside z).Run s es t) (h : Ended calls s) :
    Ended (calls ++ made es) t := by
  induction hr generalizing calls with
  | refl => rwa [made, List.filterMap_nil, List.append_nil]
  | stepL hs _ ih =>
    rw [made_cons, ← List.append_assoc]
    exact ih (ended_step hs h)

theorem left_run (hr : (outside z).Run s es t) :
    t.left + drawn (made es) ≤ s.left + put (made es) := by
  induction hr with
  | refl => rfl
  | stepL hs _ ih =>
    have hle := left_step hs
    rw [made_cons, drawn_append, put_append]
    omega

end UnixCodes.NoBlockingTcpClient
