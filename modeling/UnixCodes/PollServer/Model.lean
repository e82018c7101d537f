import Mathlib.Data.Finset.Basic
import UnixCodes.Lib.Transition
import UnixCodes.Posix

/-! The event loop of `poll-server.c`. -/
namespace UnixCodes.PollServer

open Posix Transition

def PollSize : ℕ := 1024

def POLLIN : BitVec 16 := 0x001
def POLLHUP : BitVec 16 := 0x010

/-- A `struct pollfd`; the slot is free where `fd` is -1. -/
structure PollFd where
  fd : ℤ
  events : BitVec 16
  revents : BitVec 16

/-- The test that decides whether a client is read. -/
def PollFd.Readable (p : PollFd) : Prop := p.revents &&& (POLLIN ||| POLLHUP) ≠ 0

instance (p : PollFd) : Decidable p.Readable := inferInstanceAs (Decidable (_ ≠ _))

def strlen (s : List UInt8) : ℕ := (s.takeWhile (· ≠ 0)).length

/-- What is written for the bytes of a read: `buf` is cleared before, and `strlen` may run into
the bytes beyond it. -/
def echo (bs beyond : List UInt8) : List UInt8 :=
  let buf := bs ++ List.replicate (256 - bs.length) 0
  (buf ++ beyond).take (strlen (buf ++ beyond))

/-- Where the program stands: at `poll`, at the test of the listening slot, or at slot `i` of the
scan over the clients. -/
inductive Loop
  | poll
  | accept
  | service (i : ℕ)
  | exited
  deriving DecidableEq

/-- `conns` are the open connections of the process and `sent` are its writes. -/
structure Server where
  clientPoll : ℕ → PollFd
  nfds : ℕ
  conns : Finset ℤ
  sent : List (ℤ × List UInt8)
  loop : Loop

/-- The first slot the loop over `i` finds free. -/
def freeSlot (clientPoll : ℕ → PollFd) : Option ℕ :=
  (List.range' 1 (PollSize - 1)).find? fun i => (clientPoll i).fd = -1

namespace Server

/-- A call of `poll` writes to the first `nfds` slots. -/
def reported (s : Server) (revents : ℕ → BitVec 16) : Server :=
  { s with clientPoll := fun i =>
      if i < s.nfds then { s.clientPoll i with revents := revents i } else s.clientPoll i }

/-- The kernel's part of `accept`. -/
def opened (s : Server) (cfd : ℤ) : Server := { s with conns := insert cfd s.conns }

/-- A connection gets the first free slot, or is closed. -/
def accepted (s : Server) (cfd : ℤ) : Server :=
  match freeSlot s.clientPoll with
  | some i =>
    { s with
      clientPoll :=
        Function.update s.clientPoll i { s.clientPoll i with fd := cfd, events := POLLIN }
      nfds := if s.nfds ≤ i then i + 1 else s.nfds }
  | none => { s with conns := s.conns.erase cfd }

/-- The client in slot `i` is read, and its data sent back or its connection closed. -/
def served (s : Server) (i : ℕ) (r : ReadResult 256) (beyond : List UInt8) : Server :=
  let tfd := (s.clientPoll i).fd
  match r with
  | .error _ | .bytes [] _ =>
    { s with
      clientPoll := Function.update s.clientPoll i { s.clientPoll i with fd := -1 }
      conns := s.conns.erase tfd }
  | .bytes (b :: bs) _ => { s with sent := s.sent ++ [(tfd, echo (b :: bs) beyond)] }

end Server

/-- The answers of the system calls; `beyond` are the bytes that follow `buf` in memory. -/
inductive Action
  | poll (ret : Except Errno ℕ) (revents : ℕ → BitVec 16)
  | accept (cfd : Except Errno ℤ)
  | read (r : ReadResult 256) (beyond : List UInt8)
  | main

/-- `accept` returns a descriptor that is not open. -/
inductive Server.Step (sfd : ℤ) : Server → Action → Server → Prop
  | pollError {s : Server} (hl : s.loop = .poll) (e : Errno) (revents : ℕ → BitVec 16) :
      Step sfd s (.poll (.error e) revents)
        { s.reported revents with loop := if e = EINTR then .poll else .exited }
  | poll {s : Server} (hl : s.loop = .poll) (n : ℕ) (revents : ℕ → BitVec 16) :
      Step sfd s (.poll (.ok n) revents)
        { s.reported revents with loop := if n = 0 then .poll else .accept }
  | quiet {s : Server} (hl : s.loop = .accept) (h : (s.clientPoll 0).revents &&& POLLIN = 0) :
      Step sfd s .main { s with loop := .service 1 }
  | acceptError {s : Server} (hl : s.loop = .accept)
      (h : (s.clientPoll 0).revents &&& POLLIN ≠ 0) (e : Errno) :
      Step sfd s (.accept (.error e)) { s with loop := .poll }
  | accept {s : Server} (hl : s.loop = .accept) (h : (s.clientPoll 0).revents &&& POLLIN ≠ 0)
      (cfd : ℤ) (hcfd : 0 ≤ cfd) (hlisten : cfd ≠ sfd) (hfresh : cfd ∉ s.conns) :
      Step sfd s (.accept (.ok cfd)) { (s.opened cfd).accepted cfd with loop := .service 1 }
  | skip {s : Server} {i : ℕ} (hl : s.loop = .service i) (hi : i < s.nfds)
      (h : (s.clientPoll i).fd = -1 ∨ ¬ (s.clientPoll i).Readable) :
      Step sfd s .main { s with loop := .service (i + 1) }
  | read {s : Server} {i : ℕ} (hl : s.loop = .service i) (hi : i < s.nfds)
      (hfd : (s.clientPoll i).fd ≠ -1) (h : (s.clientPoll i).Readable) (r : ReadResult 256)
      (beyond : List UInt8) :
      Step sfd s (.read r beyond) { s.served i r beyond with loop := .service (i + 1) }
  | done {s : Server} {i : ℕ} (hl : s.loop = .service i) (hi : s.nfds ≤ i) :
      Step sfd s .main { s with loop := .poll }

/-- Only the descriptors of the table have been set, and the events of the listening slot. -/
structure Server.Initial (sfd : ℤ) (s : Server) : Prop where
  listener : (s.clientPoll 0).fd = sfd ∧ (s.clientPoll 0).events = POLLIN
  free : ∀ i, 0 < i → i < PollSize → (s.clientPoll i).fd = -1
  nfds : s.nfds = 1
  conns : s.conns = ∅
  sent : s.sent = []
  loop : s.loop = .poll

def server (sfd : ℤ) : System Server Action where
  Initial := Server.Initial sfd
  Step := Server.Step sfd

/-- A server before its first `poll`, with leftover contents in its table. -/
def Server.start (sfd : ℤ) (events revents : ℕ → BitVec 16) : Server where
  clientPoll i :=
    if i = 0 then ⟨sfd, POLLIN, revents 0⟩ else ⟨-1, events i, revents i⟩
  nfds := 1
  conns := ∅
  sent := []
  loop := .poll

theorem start_initial (sfd : ℤ) (events revents : ℕ → BitVec 16) :
    (Server.start sfd events revents).Initial sfd := by
  refine ⟨⟨rfl, rfl⟩, fun i hi _ => ?_, rfl, rfl, rfl, rfl⟩
  simp [Server.start, hi.ne']

end UnixCodes.PollServer
