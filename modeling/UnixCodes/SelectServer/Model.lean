import Mathlib.Data.Finset.Card
import Mathlib.Data.Finset.Range
import UnixCodes.Lib.LowestFree
import UnixCodes.Lib.Transition
import UnixCodes.Posix

/-! The event loop of `select-server.c`. -/
namespace UnixCodes.SelectServer

open Posix Transition

def FD_SETSIZE : ℕ := 1024

/-- A write beyond the end of an `fd_set`. -/
inductive Fault
  | outOfBounds
  deriving DecidableEq

structure FdSet where
  bits : Finset ℕ
  bound : ∀ n ∈ bits, n < FD_SETSIZE

namespace FdSet

/-- `FD_SET`, which does not check its argument. -/
def set (s : FdSet) (fd : ℕ) : Except Fault FdSet :=
  if h : fd < FD_SETSIZE then
    .ok ⟨insert fd s.bits, fun _ hn =>
      (Finset.mem_insert.mp hn).elim (fun he => he ▸ h) (s.bound _)⟩
  else .error .outOfBounds

/-- `FD_CLR`. -/
def clr (s : FdSet) (fd : ℕ) : FdSet :=
  ⟨s.bits.erase fd, fun n hn => s.bound n (Finset.mem_of_mem_erase hn)⟩

end FdSet

/-- A system call on a descriptor. -/
inductive Call
  | accept (fd : ℕ)
  | read (fd : ℕ)
  | write (fd : ℕ) (bs : List UInt8)
  | shutdown (fd : ℕ)
  | close (fd : ℕ)

namespace Call

def fd : Call → ℕ
  | accept fd | read fd | write fd _ | shutdown fd | close fd => fd

/-- A ready descriptor is handled by an `accept` or a `read`. -/
def handled : Call → Option ℕ
  | accept fd | read fd => some fd
  | _ => none

end Call

/-- Where the program stands: at the head of the loop, at `select`, or at descriptor `i` of the
scan. -/
inductive Loop
  | head
  | select
  | scan (i : ℕ)
  | exited
  deriving DecidableEq

/-- `clients` are the open connections; `reported` is what the last `select` has returned, and
`calls` are the calls made since then. -/
structure Server where
  readfdCache : FdSet
  readfd : FdSet
  maxfd : ℕ
  ret : ℕ
  clients : Finset ℕ
  reported : Finset ℕ
  calls : List Call
  loop : Loop

namespace Server

/-- The loop over `j` in the branch for a client that leaves. -/
def newMaxfd (sfd maxfd : ℕ) (cache : FdSet) : ℕ :=
  (List.range' (sfd + 1) (maxfd - (sfd + 1))).foldl
    (fun newMaxfd j => if j ∈ cache.bits then j + 1 else newMaxfd) (sfd + 1)

/-- The descriptor the scan has come to is ready. -/
def counted (s : Server) : Server := { s with ret := s.ret - 1 }

/-- The kernel's part of `accept`. -/
def opened (sfd : ℕ) (s : Server) (cfd : ℕ) : Server :=
  { s with clients := insert cfd s.clients, calls := s.calls ++ [.accept sfd] }

/-- What the program does with the descriptor of a new connection. -/
def accepted (s : Server) (cfd : ℕ) : Except Fault Server := do
  let readfdCache ← s.readfdCache.set cfd
  .ok { s with
    readfdCache := readfdCache
    maxfd := if s.maxfd ≤ cfd then cfd + 1 else s.maxfd }

/-- The client is read, and its data sent back or its connection closed. -/
def served (sfd : ℕ) (s : Server) (i : ℕ) (r : ReadResult 256) : Server :=
  match r with
  | .error _ | .bytes [] _ =>
    { s with
      maxfd := if i = s.maxfd - 1 then newMaxfd sfd s.maxfd s.readfdCache else s.maxfd
      readfdCache := s.readfdCache.clr i
      clients := s.clients.erase i
      calls := s.calls ++ [.read i, .close i] }
  | .bytes (b :: bs) _ =>
    { s with calls := s.calls ++ [.read i, .write i (b :: bs), .shutdown i] }

end Server

/-- The answers of the system calls; `select` answers with the descriptors that are ready. -/
inductive Action
  | select (r : Except Errno (Finset ℕ))
  | accept (r : Option Errno)
  | read (r : ReadResult 256)
  | main

/-- `accept` returns the lowest descriptor that is not in use. -/
inductive Server.Step (sfd : ℕ) : Server → Action → Except Fault Server → Prop
  | head {s : Server} (hl : s.loop = .head) :
      Step sfd s .main (.ok
        { s with
          readfd := s.readfdCache
          loop := if FD_SETSIZE ≤ s.maxfd then .exited else .select })
  | selectError {s : Server} (hl : s.loop = .select) (e : Errno) :
      Step sfd s (.select (.error e)) (.ok
        { s with reported := ∅, calls := [], loop := if e = EINTR then .head else .exited })
  | select {s : Server} (hl : s.loop = .select) (ready : Finset ℕ)
      (hready : ∀ n ∈ ready, n ∈ s.readfd.bits ∧ n < s.maxfd) :
      Step sfd s (.select (.ok ready)) (.ok
        { s with
          readfd := ⟨ready, fun n hn => s.readfd.bound n (hready n hn).1⟩
          ret := ready.card
          reported := ready
          calls := []
          loop := if ready.card = 0 then .head else .scan sfd })
  | skip {s : Server} {i : ℕ} (hl : s.loop = .scan i) (hi : i < s.maxfd) (hret : s.ret ≠ 0)
      (hisset : i ∉ s.readfd.bits) :
      Step sfd s .main (.ok { s with loop := .scan (i + 1) })
  | acceptError {s : Server} (hl : s.loop = .scan sfd) (hi : sfd < s.maxfd) (hret : s.ret ≠ 0)
      (hisset : sfd ∈ s.readfd.bits) (e : Errno) :
      Step sfd s (.accept (some e)) (.ok
        { s.counted with calls := s.calls ++ [.accept sfd], loop := .scan (sfd + 1) })
  | accept {s : Server} (hl : s.loop = .scan sfd) (hi : sfd < s.maxfd) (hret : s.ret ≠ 0)
      (hisset : sfd ∈ s.readfd.bits) (cfd : ℕ)
      (hcfd : cfd = lowestFree (Finset.range (sfd + 1) ∪ s.clients)) :
      Step sfd s (.accept none)
        (((s.counted.opened sfd cfd).accepted cfd).map fun s => { s with loop := .scan (sfd + 1) })
  | read {s : Server} {i : ℕ} (hl : s.loop = .scan i) (hi : i < s.maxfd) (hret : s.ret ≠ 0)
      (hisset : i ∈ s.readfd.bits) (hne : i ≠ sfd) (r : ReadResult 256) :
      Step sfd s (.read r) (.ok { s.counted.served sfd i r with loop := .scan (i + 1) })
  | done {s : Server} {i : ℕ} (hl : s.loop = .scan i) (hdone : s.maxfd ≤ i ∨ s.ret = 0) :
      Step sfd s .main (.ok { s with loop := .head })

/-- At the first turn of the loop both sets hold the listening socket. -/
structure Server.Initial (sfd : ℕ) (s : Server) : Prop where
  readfdCache : s.readfdCache.bits = {sfd}
  readfd : s.readfd.bits = {sfd}
  maxfd : s.maxfd = sfd + 1
  clients : s.clients = ∅
  reported : s.reported = ∅
  calls : s.calls = []
  loop : s.loop = .head

def server (sfd : ℕ) : System Server Action where
  Initial := Server.Initial sfd
  Step s a s' := Server.Step sfd s a (.ok s')

/-- A server before its first `select`. -/
def Server.start (sfd : Fin FD_SETSIZE) : Server where
  readfdCache := ⟨{sfd.val}, fun n hn => by rw [Finset.mem_singleton.mp hn]; exact sfd.isLt⟩
  readfd := ⟨{sfd.val}, fun n hn => by rw [Finset.mem_singleton.mp hn]; exact sfd.isLt⟩
  maxfd := sfd + 1
  ret := 0
  clients := ∅
  reported := ∅
  calls := []
  loop := .head

theorem start_initial (sfd : Fin FD_SETSIZE) : (Server.start sfd).Initial sfd :=
  ⟨rfl, rfl, rfl, rfl, rfl, rfl, rfl⟩

end UnixCodes.SelectServer
