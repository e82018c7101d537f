import UnixCodes.Lib.Transition
import UnixCodes.Lib.Window
import UnixCodes.Posix

/-! The poll loop of `apue/io-multiply-server/no_blocking_tcp_client.c`, one iteration at a time,
with the `read`, `write` and `shutdown` calls it makes. -/
namespace UnixCodes.NoBlockingTcpClient

open Posix ByteStream

def tcpRecvBuf : ℕ := 1024
def tcpSendBuf : ℕ := 512

inductive Fd
  | stdin
  | sock
  | stdout
  deriving DecidableEq

/-- A call and its answer: the bytes that came back or how many were taken, `none` for -1. -/
inductive Call
  | read (f : Fd) (n : ℕ) (got : Option (List UInt8))
  | write (f : Fd) (buf : List UInt8) (accepted : Option ℕ)
  | shutdown
  deriving DecidableEq

/-- The two bits of `events` and `revents` that the loop sets or tests. -/
structure Events where
  pollin : Bool
  pollout : Bool

structure PollSet where
  stdin : Events
  fd : Events
  stdout : Events

inductive PollResult
  | error (e : Errno)
  | timeout
  | ready (revents : PollSet)

/-- What the kernel answers during one iteration, to whichever calls the iteration makes. -/
structure Answers where
  poll : PollResult
  soError : ℕ
  readStdin : ∀ n, ReadResult n
  readFd : ∀ n, ReadResult n
  writeFd : ∀ n, WriteResult n
  writeStdout : ∀ n, WriteResult n

/-- The variables of `main` that live across iterations, and the calls made so far. -/
structure Client where
  cn : ℤ
  stdineof : Bool
  toBuf : Window UInt8
  frBuf : Window UInt8
  calls : List Call

def Client.log (c : Client) (x : Call) : Client := { c with calls := c.calls ++ [x] }

inductive Why
  | pollError
  | stdinReadError
  | connectError
  | fdReadError
  | fdWriteError
  | stdoutWriteError
  | userCloseConn
  | serverCloseConn
  deriving DecidableEq

/-- The loop was left, by `break` or `exit`. -/
structure Left where
  why : Why
  client : Client

/-- Both buffers zeroed and empty, no call made; `cn` is what `connect` returned. -/
def Client.start (cn : ℤ) : Client := ⟨cn, false, ⟨fun _ => 0, 0, 0⟩, ⟨fun _ => 0, 0, 0⟩, []⟩

/-- `connect` has succeeded or is still in progress. -/
def Initial (c : Client) : Prop := c = .start 0 ∨ c = .start (-1)

/-- The events the head of the loop asks `poll` for. -/
def events (c : Client) : PollSet :=
  if c.cn = -1 then ⟨⟨false, false⟩, ⟨true, true⟩, ⟨false, false⟩⟩
  else
    { stdin := ⟨!c.stdineof && decide (c.toBuf.eptr < tcpRecvBuf), false⟩
      fd := ⟨decide (c.frBuf.eptr < tcpSendBuf), decide (c.toBuf.sptr ≠ c.toBuf.eptr)⟩
      stdout := ⟨false, decide (c.frBuf.sptr ≠ c.frBuf.eptr)⟩ }

/-- `fds[0]`; the flag is `can_write_fd`. -/
def stdinReady (c : Client) (k : Answers) (r : PollSet) : Except Left (Client × Bool) :=
  if r.stdin.pollin then
    match k.readStdin (tcpRecvBuf - c.toBuf.eptr) with
    | .error e =>
      let c := c.log (.read .stdin (tcpRecvBuf - c.toBuf.eptr) none)
      if e ≠ EWOULDBLOCK then .error ⟨.stdinReadError, c⟩ else .ok (c, false)
    | .bytes [] _ =>
      let c := { c.log (.read .stdin (tcpRecvBuf - c.toBuf.eptr) (some [])) with stdineof := true }
      .ok (if c.toBuf.sptr = c.toBuf.eptr then c.log .shutdown else c, false)
    | .bytes (x :: xs) _ =>
      let c := c.log (.read .stdin (tcpRecvBuf - c.toBuf.eptr) (some (x :: xs)))
      .ok ({ c with toBuf := c.toBuf.fill (x :: xs) }, true)
  else .ok (c, false)

/-- The socket becomes readable; the flag is `can_write_out`. -/
def fdReadable (c : Client) (k : Answers) : Except Left (Client × Bool) :=
  match k.readFd (tcpSendBuf - c.frBuf.eptr) with
  | .error e =>
    let c := c.log (.read .sock (tcpSendBuf - c.frBuf.eptr) none)
    if e ≠ EWOULDBLOCK then .error ⟨.fdReadError, c⟩ else .ok (c, false)
  | .bytes [] _ =>
    let c := c.log (.read .sock (tcpSendBuf - c.frBuf.eptr) (some []))
    .error ⟨if c.stdineof then .userCloseConn else .serverCloseConn, c⟩
  | .bytes (x :: xs) _ =>
    let c := c.log (.read .sock (tcpSendBuf - c.frBuf.eptr) (some (x :: xs)))
    .ok ({ c with frBuf := c.frBuf.fill (x :: xs) }, true)

/-- The socket becomes writable, or stdin has just delivered something to write. -/
def fdWritable (c : Client) (k : Answers) : Except Left (Client × Bool) :=
  if c.toBuf.eptr - c.toBuf.sptr > 0 then
    match k.writeFd (c.toBuf.eptr - c.toBuf.sptr) with
    | .error e =>
      let c := c.log (.write .sock c.toBuf.pending none)
      if e ≠ EWOULDBLOCK then .error ⟨.fdWriteError, c⟩ else .ok (c, false)
    | .count wn _ =>
      let c := c.log (.write .sock c.toBuf.pending (some wn))
      let c := { c with toBuf := c.toBuf.advance wn }
      if c.toBuf.sptr = c.toBuf.eptr then
        let c := { c with toBuf := c.toBuf.rewind }
        .ok (if c.stdineof then c.log .shutdown else c, false)
      else .ok (c, false)
  else .ok (c, false)

/-- `fds[1]`: the outcome of `connect`, else a read, else a write. -/
def fdReady (c : Client) (k : Answers) (r : PollSet) (canWriteFd : Bool) :
    Except Left (Client × Bool) :=
  if canWriteFd || (r.fd.pollin || r.fd.pollout) then
    if c.cn = -1 then
      if k.soError = 0 then .ok ({ c with cn := 0 }, false) else .error ⟨.connectError, c⟩
    else if r.fd.pollin then fdReadable c k
    else if canWriteFd || r.fd.pollout then fdWritable c k
    else .ok (c, false)
  else .ok (c, false)

/-- `fds[2]`. -/
def stdoutReady (c : Client) (k : Answers) (r : PollSet) (canWriteOut : Bool) :
    Except Left Client :=
  if canWriteOut || r.stdout.pollout then
    if c.frBuf.eptr - c.frBuf.sptr ≤ 0 then .ok c
    else
      match k.writeStdout (c.frBuf.eptr - c.frBuf.sptr) with
      | .error e =>
        let c := c.log (.write .stdout c.frBuf.pending none)
        if e ≠ EWOULDBLOCK then .error ⟨.stdoutWriteError, c⟩ else .ok c
      | .count wn _ =>
        let c := c.log (.write .stdout c.frBuf.pending (some wn))
        let c := { c with frBuf := c.frBuf.advance wn }
        .ok (if c.frBuf.sptr = c.frBuf.eptr then { c with frBuf := c.frBuf.rewind } else c)
  else .ok c

/-- The body of the loop, from one head to the next. -/
def iteration (c : Client) (k : Answers) : Except Left Client :=
  match k.poll with
  | .error e => if EINTR ≠ e then .error ⟨.pollError, c⟩ else .ok c
  | .timeout => .ok c
  | .ready r =>
    match stdinReady c k r with
    | .error l => .error l
    | .ok (c, canWriteFd) =>
      match fdReady c k r canWriteFd with
      | .error l => .error l
      | .ok (c, canWriteOut) => stdoutReady c k r canWriteOut

/-- The states are those at the loop head. -/
def system : Transition.System Client Answers where
  Initial := Initial
  Step c k c' := iteration c k = .ok c'

def Call.bytesRead (f : Fd) : Call → List UInt8
  | .read g _ (some bs) => if g = f then bs else []
  | _ => []

def Call.bytesWritten (f : Fd) : Call → List UInt8
  | .write g buf (some k) => if g = f then buf.take k else []
  | _ => []

/-- The bytes that the calls have read from a descriptor. -/
def received (f : Fd) (calls : List Call) : List UInt8 := calls.flatMap (Call.bytesRead f)

/-- The bytes that the calls have written to a descriptor. -/
def sent (f : Fd) (calls : List Call) : List UInt8 := calls.flatMap (Call.bytesWritten f)

/-- `poll` reports only what the `events` fields of the call asked for. -/
def Requested (c : Client) (k : Answers) : Prop :=
  ∀ r, k.poll = .ready r →
    (r.stdin.pollin → (events c).stdin.pollin) ∧ (r.stdin.pollout → (events c).stdin.pollout) ∧
    (r.fd.pollin → (events c).fd.pollin) ∧ (r.fd.pollout → (events c).fd.pollout) ∧
    (r.stdout.pollin → (events c).stdout.pollin) ∧ (r.stdout.pollout → (events c).stdout.pollout)

end UnixCodes.NoBlockingTcpClient
