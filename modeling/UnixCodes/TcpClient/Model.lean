import UnixCodes.Lib.Memory
import UnixCodes.Lib.Transition
import UnixCodes.Posix

/-! The `select` loop of `tcp-client.c`, between the standard input and the server. -/
namespace UnixCodes.TcpClient

open Posix Transition

/-- What `fgets(sendline, 255, stdin)` returns: it stops behind a newline, or for want of room. -/
structure Line where
  bytes : List UInt8
  ne : bytes ≠ []
  le : bytes.length ≤ 254
  newline : 10 ∉ bytes.dropLast

/-- Where the loop stands. `read` knows whether the standard input is ready as well. -/
inductive Loop
  | select
  | read (stdin : Bool)
  | fgets
  | write
  | left
  | exited
  deriving DecidableEq

/-- `lines` are the lines that `fgets` has returned, and `written` the bytes that went to the
server for each of them. -/
structure State where
  sendline : List UInt8
  stdineof : Bool
  lines : List Line
  written : List (List UInt8)
  loop : Loop

/-- `end` and a newline. -/
def endLine : List UInt8 := [101, 110, 100, 10]

namespace State

/-- Both arrays are filled with zeros. -/
def start : State where
  sendline := List.replicate 256 0
  stdineof := false
  lines := []
  written := []
  loop := .select

/-- `fgets` stores the line and a NUL, and nothing behind it. -/
def store (s : State) (line : Line) : State :=
  { s with
    sendline := overwrite s.sendline 0 (line.bytes ++ [0])
    lines := s.lines ++ [line]
    loop := .write }

/-- The server gets the first `k` bytes of all of `sendline`. -/
def send (s : State) (k : ℕ) : State := { s with written := s.written ++ [s.sendline.take k] }

/-- `recvline`, which is cleared before each `read`, holds `end`, and there is no more input; or
the client runs in a test. -/
def Ends (s : State) (test : Bool) (bs : List UInt8) : Prop :=
  cString (overwrite (List.replicate 256 0) 0 bs) = some endLine ∧ s.stdineof = true ∨ test = true

instance (s : State) (test : Bool) (bs : List UInt8) : Decidable (s.Ends test bs) :=
  inferInstanceAs (Decidable (_ ∨ _))

end State

inductive Action
  | select (r : Except Errno (Bool × Bool))
  | read (r : ReadResult 255)
  | fgets (r : Option Line)
  | write (r : WriteResult 256)

/-- `select` is asked for the standard input only before its end. -/
inductive Step (test : Bool) : State → Action → State → Prop
  | selectInterrupted {s : State} (hl : s.loop = .select) : Step test s (.select (.error EINTR)) s
  | selectError {s : State} (hl : s.loop = .select) (e : Errno) (he : e ≠ EINTR) :
      Step test s (.select (.error e)) { s with loop := .left }
  | select {s : State} (hl : s.loop = .select) (fd stdin : Bool)
      (hstdin : stdin = true → s.stdineof = false) :
      Step test s (.select (.ok (fd, stdin)))
        { s with loop := if fd then .read stdin else if stdin then .fgets else .select }
  | readError {s : State} {stdin : Bool} (hl : s.loop = .read stdin) (e : Errno) :
      Step test s (.read (.error e)) { s with loop := .exited }
  | readEnd {s : State} {stdin : Bool} (hl : s.loop = .read stdin) (hle : [].length ≤ 255) :
      Step test s (.read (.bytes [] hle)) { s with loop := .left }
  | read {s : State} {stdin : Bool} {bs : List UInt8} (hl : s.loop = .read stdin)
      (hle : bs.length ≤ 255) (hne : bs ≠ []) :
      Step test s (.read (.bytes bs hle))
        { s with loop := if s.Ends test bs then .left else if stdin then .fgets else .select }
  | fgets {s : State} (hl : s.loop = .fgets) (line : Line) :
      Step test s (.fgets (some line)) (s.store line)
  | fgetsEnd {s : State} (hl : s.loop = .fgets) :
      Step test s (.fgets none) { s with stdineof := true, loop := .select }
  | write {s : State} {k : ℕ} (hl : s.loop = .write) (hle : k ≤ 256) (hpos : 0 < k) :
      Step test s (.write (.count k hle)) { s.send k with loop := .select }
  /- `errno` is what an earlier call has left in it. -/
  | writeNone {s : State} (hl : s.loop = .write) (hle : 0 ≤ 256) (errno : Option Errno) :
      Step test s (.write (.count 0 hle))
        { s.send 0 with loop := if errno = some EINTR then .left else .select }
  | writeError {s : State} (hl : s.loop = .write) (e : Errno) :
      Step test s (.write (.error e))
        { s.send 0 with loop := if e = EINTR then .left else .select }

/-- The program, started with the argument `test` or without it. -/
def tcpClient (test : Bool) : System State Action where
  Initial s := s = .start
  Step := Step test

/-- Each `write` transfers its full count. -/
def Action.Full : Action → Prop
  | .write (.count k _) => k = 256
  | .write (.error _) => False
  | _ => True

end UnixCodes.TcpClient
