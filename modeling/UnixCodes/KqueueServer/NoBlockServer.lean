import UnixCodes.KqueueServer.Drain
import UnixCodes.Lib.Descriptors
import UnixCodes.Lib.Heap
import UnixCodes.Lib.Transition

/-! The event loop of `no_block_server.c`, with the `client_addr` blocks that it hangs on its
registrations as `udata`. -/
namespace UnixCodes.KqueueServer

open Posix Transition

/-- What a C program must not do with a pointer. -/
inductive Fault
  | dangling
  | doubleFree
  deriving DecidableEq

/-- A block is a `struct sockaddr_in`; `udata` is `none` where the code registers `NULL`. -/
structure World where
  heap : Heap Unit
  fds : Descriptors (Option ℕ)

namespace World

/-- The pointer is `w.heap.next`. -/
def malloc (w : World) : World := { w with heap := w.heap.alloc () }

def free (w : World) (p : ℕ) : Except Fault World :=
  if (w.heap.block p).isSome then .ok { w with heap := w.heap.free p } else .error .doubleFree

end World

/-- An event of a batch; the filter is always `EVFILT_READ`, and `eof` is `EV_EOF` in `flags`. -/
structure Item where
  ident : ℕ
  udata : Option ℕ
  data : ℤ
  eof : Bool

/-- A client that `accept` returns, and whether `EV_ADD` succeeds for it. -/
structure Accepted where
  fd : ℕ
  added : Bool

/-- One turn of the loop over `accept`, which stores the address of the client in `clientAddr`. -/
def acceptTurn (w : World) (clientAddr : ℕ) (a : Accepted) : Except Fault World :=
  if (w.heap.block clientAddr).isSome then
    let w := { w with fds := w.fds.openFile a.fd 0 }
    if a.added then .ok { w with fds := w.fds.register a.fd (some clientAddr) }
    else { w with fds := w.fds.close a.fd }.free clientAddr
  else .error .dangling

/-- The loop over `accept`. It is left when `accept` fails, and `accept` returns a number that is
not in use. -/
inductive AcceptLoop : World → ℕ → List Accepted → Except Fault World → Prop
  | done {w : World} {clientAddr : ℕ} : AcceptLoop w clientAddr [] (.ok w)
  | fault {w : World} {clientAddr : ℕ} {a : Accepted} {as : List Accepted} {f : Fault}
      (hfd : 0 < a.fd) (hfresh : w.fds.file a.fd = none)
      (h : acceptTurn w clientAddr a = .error f) : AcceptLoop w clientAddr (a :: as) (.error f)
  | turn {w w₁ : World} {clientAddr : ℕ} {a : Accepted} {as : List Accepted}
      {r : Except Fault World} (hfd : 0 < a.fd) (hfresh : w.fds.file a.fd = none)
      (h : acceptTurn w clientAddr a = .ok w₁) (hrest : AcceptLoop w₁ clientAddr as r) :
      AcceptLoop w clientAddr (a :: as) r

/-- Nobody looks at the answer to `EV_DELETE`, and `close` drops the registration. -/
def deleteKevent (w : World) (kt : Item) : Except Fault (World × Item) :=
  match kt.udata with
  | none => .ok (w, kt)
  | some p => do
    let w := { w with fds := (w.fds.deregister kt.ident).close kt.ident }
    let w ← w.free p
    .ok (w, { kt with udata := none })

/-- What follows the read loop, which ends in `delete_kevent` if it has seen the end of file. -/
def clientEvent (w : World) (item : Item) (exit : Exit) : Except Fault World := do
  let (w, item) ← if exit = .eof then deleteKevent w item else .ok (w, item)
  if item.eof then do
    let (w, _) ← deleteKevent w item
    .ok w
  else .ok w

inductive Loop
  | wait
  | batch (evs : List Item)
  | exited

structure Server where
  world : World
  loop : Loop

/-- `accept` is a listen event with the answer of `malloc` and the clients accepted, `client` the
event of a client with the contents of `buf` and the answers to its read loop. -/
inductive Action
  | kevent (r : Except Errno (List Item))
  | accept (malloc : Bool) (as : List Accepted)
  | client (buf : List UInt8) (ks : List Answers)
  | main

/-- `kevent` reports each registration at most once. -/
inductive Server.Step (listenFd : ℕ) : Server → Action → Except Fault Server → Prop
  | failed {w : World} (e : Errno) :
      Step listenFd ⟨w, .wait⟩ (.kevent (.error e))
        (.ok ⟨w, if e = EINTR then .wait else .exited⟩)
  | wait {w : World} (evs : List Item) (hlen : evs.length ≤ 1024)
      (hreg : ∀ x ∈ evs, w.fds.registration x.ident = some x.udata)
      (hnodup : (evs.map Item.ident).Nodup) :
      Step listenFd ⟨w, .wait⟩ (.kevent (.ok evs)) (.ok ⟨w, .batch evs⟩)
  | done {w : World} : Step listenFd ⟨w, .batch []⟩ .main (.ok ⟨w, .wait⟩)
  | noMemory {w : World} {x : Item} {evs : List Item} (hs : x.ident = listenFd) :
      Step listenFd ⟨w, .batch (x :: evs)⟩ (.accept false []) (.ok ⟨w, .batch evs⟩)
  | accept {w : World} {x : Item} {evs : List Item} (hs : x.ident = listenFd)
      (as : List Accepted) {r : Except Fault World}
      (h : AcceptLoop w.malloc w.heap.next as r) :
      Step listenFd ⟨w, .batch (x :: evs)⟩ (.accept true as) (r.map fun w => ⟨w, .batch evs⟩)
  | eexit {w : World} {x : Item} {evs : List Item} (hs : x.ident ≠ listenFd) (hdata : x.data < 0) :
      Step listenFd ⟨w, .batch (x :: evs)⟩ .main (.ok ⟨w, .exited⟩)
  | client {w : World} {x : Item} {evs : List Item} (hs : x.ident ≠ listenFd) (hdata : 0 ≤ x.data)
      (buf : List UInt8) (ks : List Answers) (hleft : (noBlockDrain buf ks).2 ≠ .running) :
      Step listenFd ⟨w, .batch (x :: evs)⟩ (.client buf ks)
        ((clientEvent w x (noBlockDrain buf ks).2).map fun w => ⟨w, .batch evs⟩)

/-- The listening socket is open and registered with `NULL`, and nothing is allocated. -/
def Server.Initial (listenFd : ℕ) (s : Server) : Prop :=
  s.loop = .wait ∧ s.world.heap = .empty ∧
    s.world.fds.registration = fun fd => if fd = listenFd then some none else none

def server (listenFd : ℕ) : System Server Action where
  Initial := Server.Initial listenFd
  Step s a s' := Server.Step listenFd s a (.ok s')

/-- A server at its first `kevent`. -/
def Server.start (listenFd : ℕ) : Server :=
  ⟨⟨.empty, (Descriptors.empty.openFile listenFd 0).register listenFd none⟩, .wait⟩

theorem start_initial (listenFd : ℕ) : (Server.start listenFd).Initial listenFd := by
  refine ⟨rfl, rfl, ?_⟩
  funext fd
  by_cases h : fd = listenFd
  · subst h
    rw [if_pos rfl]
    exact Descriptors.registration_register_self (Descriptors.file_openFile_self rfl)
  · rw [if_neg h]
    exact Descriptors.registration_register_of_ne h

end UnixCodes.KqueueServer
