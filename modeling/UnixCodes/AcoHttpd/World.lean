import UnixCodes.AcoHttpd.Routine
import UnixCodes.Lib.Heap
import UnixCodes.Lib.Descriptors

/-! What the connections of `aco_httpd` are made of, and the functions that acquire and release it:
`set_non_blocking`, `poll_add`, `poll_delete` and one turn of `handle_accept`. -/
namespace UnixCodes.AcoHttpd

open Posix

/-- `conn_t`, with pointers as names of blocks. -/
structure Conn where
  fd : ℕ
  routine : ℕ
  sa : ℕ

/-- A `conn_t` that has not been filled in yet is `none`; a routine has its argument. -/
inductive Block
  | sockaddr
  | conn (c : Option Conn)
  | routine (arg : ℕ) (pc : Pc)

/-- What a C program must not do with a pointer or a descriptor. -/
inductive Fault
  | dangling
  | doubleFree
  | badClose
  | resumeEnded

/-- The outcome of a check of `set_non_blocking`: whether `F_SETFL` succeeded, and whether the
caller went on. -/
structure Screening where
  settled : Bool
  passed : Bool

/-- `udata` is `none` where the code registers `NULL`. -/
structure World where
  heap : Heap Block
  fds : Descriptors (Option ℕ)
  screened : List Screening

namespace World

/-- No block is allocated, no descriptor open. -/
def empty : World := ⟨.empty, .empty, []⟩

/-- The pointer is `w.heap.next`. -/
def malloc (w : World) (b : Block) : World := { w with heap := w.heap.alloc b }

def store (w : World) (p : ℕ) (b : Block) : World := { w with heap := w.heap.store p b }

def free (w : World) (p : ℕ) : Except Fault World :=
  if (w.heap.block p).isSome then .ok { w with heap := w.heap.free p } else .error .doubleFree

def close (w : World) (fd : ℕ) : Except Fault World :=
  if (w.fds.file fd).isSome then .ok { w with fds := w.fds.close fd } else .error .badClose

def conn (w : World) (p : ℕ) : Except Fault Conn :=
  match w.heap.block p with
  | some (.conn (some c)) => .ok c
  | _ => .error .dangling

def routine (w : World) (p : ℕ) : Except Fault (ℕ × Pc) :=
  match w.heap.block p with
  | some (.routine arg pc) => .ok (arg, pc)
  | _ => .error .dangling

end World

def O_NONBLOCK : BitVec 32 := 0x4

/-- `fcntl(F_GETFL)` and `fcntl(F_SETFL)`; `none` is success. -/
def setNonBlocking (w : World) (fd : ℕ) (getfl setfl : Option Errno) : World × ℤ :=
  let fg : BitVec 32 :=
    match getfl, w.fds.file fd with
    | none, some f => f.flags
    | _, _ => -1
  match setfl with
  | some e => (w, e.code)
  | none => ({ w with fds := w.fds.setFlags fd (fg ||| O_NONBLOCK) }, 0)

/-- Whether `EV_ADD` succeeds is up to the kernel. -/
def pollAdd (w : World) (fd conn : ℕ) (ok : Bool) : World × ℤ :=
  if ok then ({ w with fds := w.fds.register fd (some conn) }, 0) else (w, -1)

def pollDelete (w : World) (p : ℕ) (delete : Option Errno) : Except Fault World := do
  let c ← w.conn p
  match delete with
  | some _ => .ok w
  | none =>
    let w := { w with fds := w.fds.deregister c.fd }
    let w ← w.free c.sa
    w.close c.fd

/-- What one turn of the loop of `handle_accept` is answered. -/
structure AcceptAnswers where
  mallocClient : Bool
  mallocConn : Bool
  accept : Except Errno (ℕ × BitVec 32)
  getfl : Option Errno
  setfl : Option Errno
  acoCreate : Bool
  pollAdd : Bool

/-- The turn from `set_non_blocking` on; the flag says whether the loop goes on. -/
def acceptClient (w : World) (client clientConn cFd : ℕ) (k : AcceptAnswers) :
    Except Fault (World × Bool) :=
  let mode := setNonBlocking w cFd k.getfl k.setfl
  let w : World :=
    { mode.1 with screened := w.screened ++ [⟨k.setfl.isNone, !decide (mode.2 < 0)⟩] }
  if mode.2 < 0 then do
    let w ← w.free clientConn
    .ok (w, false)
  else if k.acoCreate = false then do
    let w ← w.free clientConn
    .ok (w, false)
  else
    let cr := w.heap.next
    let w := w.malloc (.routine clientConn .created)
    -- The three fields are filled in at once: nothing reads them in between.
    let w := w.store clientConn (.conn (some ⟨cFd, cr, client⟩))
    -- A failure of `poll_add` is reported and forgotten.
    .ok ((pollAdd w cFd clientConn k.pollAdd).1, true)

/-- One turn of the loop. -/
def handleAccept (w : World) (k : AcceptAnswers) : Except Fault (World × Bool) :=
  if k.mallocClient = false then .ok (w, false)
  else
    let client := w.heap.next
    let w := w.malloc .sockaddr
    if k.mallocConn = false then .ok (w, false)
    else
      let clientConn := w.heap.next
      let w := w.malloc (.conn none)
      match k.accept with
      | .error e =>
        if e ≠ EAGAIN then do
          let w ← w.free client
          let w ← w.free clientConn
          .ok (w, false)
        else if e = EINTR then .ok (w, true)
        else .ok (w, false)
      | .ok (cFd, flags) =>
        acceptClient { w with fds := w.fds.openFile cFd flags } client clientConn cFd k

variable {w : World} {k : AcceptAnswers} {fd p client clientConn cFd : ℕ} {b : Block}
  {getfl setfl : Option Errno}

/-- `set_non_blocking` returns `errno`, which is not negative, so its callers' test never holds. -/
theorem setNonBlocking_nonneg : ¬ (setNonBlocking w fd getfl setfl).2 < 0 := by
  cases setfl with
  | none => exact lt_irrefl 0
  | some e => exact not_lt.mpr (Int.natCast_nonneg _)

@[simp] theorem setNonBlocking_heap : (setNonBlocking w fd getfl setfl).1.heap = w.heap := by
  cases setfl <;> rfl

theorem free_ok (h : w.heap.block p = some b) :
    w.free p = .ok { w with heap := w.heap.free p } := if_pos (by simp [h])

/-- A descriptor after the check that lets every descriptor pass. -/
def World.screen (w : World) (cFd : ℕ) (k : AcceptAnswers) : World :=
  { (setNonBlocking w cFd k.getfl k.setfl).1 with
    screened := w.screened ++ [⟨k.setfl.isNone, true⟩] }

@[simp] theorem screen_heap : (w.screen cFd k).heap = w.heap := setNonBlocking_heap

/-- A connection as it stands before `poll_add`. -/
def World.assemble (w : World) (client clientConn cFd : ℕ) : World :=
  (w.malloc (.routine clientConn .created)).store clientConn
    (.conn (some ⟨cFd, w.heap.next, client⟩))

theorem acceptClient_eq (h : w.heap.block clientConn = some b) :
    acceptClient w client clientConn cFd k =
      if k.acoCreate = false then
        .ok ({ w.screen cFd k with heap := w.heap.free clientConn }, false)
      else
        .ok ((pollAdd ((w.screen cFd k).assemble client clientConn cFd) cFd clientConn k.pollAdd).1,
          true) := by
  unfold acceptClient
  dsimp only
  rw [if_neg setNonBlocking_nonneg, decide_eq_false setNonBlocking_nonneg]
  change (if k.acoCreate = false then (w.screen cFd k).free clientConn >>= fun w => .ok (w, false)
    else _) = _
  split
  · rw [free_ok (w := w.screen cFd k) (b := b) (by rw [screen_heap]; exact h), screen_heap]
    rfl
  · rfl

/-- Nothing but `clientConn` is written. -/
theorem assemble_of_ne (h : w.heap.block p = some b) (hne : p ≠ clientConn) :
    (w.assemble client clientConn cFd).heap.block p = some b :=
  (Heap.block_store_of_ne hne).trans (Heap.block_alloc h)

theorem assemble_conn (h : w.heap.block clientConn = some b) :
    (w.assemble client clientConn cFd).heap.block clientConn =
      some (.conn (some ⟨cFd, w.heap.next, client⟩)) :=
  Heap.block_store_self (Heap.block_alloc h)

theorem assemble_routine (h : w.heap.block clientConn = some b) :
    (w.assemble client clientConn cFd).heap.block w.heap.next =
      some (.routine clientConn .created) :=
  (Heap.block_store_of_ne (Heap.ne_next h).symm).trans Heap.block_alloc_next

theorem assemble_live :
    (w.assemble client clientConn cFd).heap.live = insert w.heap.next w.heap.live :=
  Heap.live_store.trans Heap.live_alloc

@[simp] theorem pollAdd_heap {ok : Bool} : (pollAdd w fd p ok).1.heap = w.heap := by
  cases ok <;> rfl

@[simp] theorem pollAdd_file {ok : Bool} : (pollAdd w fd p ok).1.fds.file = w.fds.file := by
  cases ok <;> rfl

@[simp] theorem pollAdd_screened {ok : Bool} : (pollAdd w fd p ok).1.screened = w.screened := by
  cases ok <;> rfl

theorem pollAdd_of_ne {ok : Bool} {n : ℕ} (h : n ≠ fd) :
    (pollAdd w fd p ok).1.fds.registration n = w.fds.registration n := by
  cases ok with
  | false => rfl
  | true => exact Descriptors.registration_register_of_ne h

/-- The two calls of `malloc` that a turn begins with. -/
def World.mallocs (w : World) : World := (w.malloc .sockaddr).malloc (.conn none)

theorem mallocs_client : w.mallocs.heap.block w.heap.next = some .sockaddr :=
  Heap.block_alloc Heap.block_alloc_next

theorem mallocs_conn : w.mallocs.heap.block (w.heap.next + 1) = some (.conn none) :=
  Heap.block_alloc_next

/-- The world of a turn whose `accept` has returned a descriptor. -/
def World.acceptFd (w : World) (cFd : ℕ) (flags : BitVec 32) : World :=
  { w.mallocs with fds := w.fds.openFile cFd flags }

theorem acceptFd_heap {flags : BitVec 32} :
    ((w.acceptFd cFd flags).screen cFd k).heap = w.mallocs.heap := screen_heap

/-- The registrations are not touched before `poll_add`. -/
theorem acceptFd_registration {flags : BitVec 32} :
    ((w.acceptFd cFd flags).screen cFd k).fds.registration fd = w.fds.registration fd := by
  unfold World.screen setNonBlocking
  cases k.setfl <;> rfl

/-- All that one turn can do. -/
inductive AcceptEffect (w : World) (k : AcceptAnswers) : World × Bool → Prop
  | noClient (hclient : k.mallocClient = false) : AcceptEffect w k (w, false)
  | noConn (hclient : k.mallocClient = true) (hconn : k.mallocConn = false) :
      AcceptEffect w k (w.malloc .sockaddr, false)
  | failed (hclient : k.mallocClient = true) (hconn : k.mallocConn = true) (e : Errno)
      (he : k.accept = .error e) (hne : e ≠ EAGAIN) :
      AcceptEffect w k
        ({ w with heap := (w.mallocs.heap.free w.heap.next).free (w.heap.next + 1) }, false)
  | again (hclient : k.mallocClient = true) (hconn : k.mallocConn = true)
      (he : k.accept = .error EAGAIN) : AcceptEffect w k (w.mallocs, false)
  | noRoutine (hclient : k.mallocClient = true) (hconn : k.mallocConn = true) (cFd : ℕ)
      (flags : BitVec 32) (he : k.accept = .ok (cFd, flags)) (hcreate : k.acoCreate = false) :
      AcceptEffect w k
        ({ (w.acceptFd cFd flags).screen cFd k with
          heap := w.mallocs.heap.free (w.heap.next + 1) }, false)
  | accepted (hclient : k.mallocClient = true) (hconn : k.mallocConn = true) (cFd : ℕ)
      (flags : BitVec 32) (he : k.accept = .ok (cFd, flags)) (hcreate : k.acoCreate = true) :
      AcceptEffect w k
        ((pollAdd (((w.acceptFd cFd flags).screen cFd k).assemble w.heap.next (w.heap.next + 1) cFd)
          cFd (w.heap.next + 1) k.pollAdd).1, true)

/-- No turn of `handle_accept` misuses a pointer. -/
theorem handleAccept_effect : ∃ r, handleAccept w k = .ok r ∧ AcceptEffect w k r := by
  unfold handleAccept
  by_cases hclient : k.mallocClient = false
  · exact ⟨_, if_pos hclient, .noClient hclient⟩
  rw [if_neg hclient]
  rw [Bool.not_eq_false] at hclient
  by_cases hconn : k.mallocConn = false
  · exact ⟨_, if_pos hconn, .noConn hclient hconn⟩
  dsimp only
  rw [if_neg hconn]
  rw [Bool.not_eq_false] at hconn
  cases he : k.accept with
  | error e =>
    dsimp only
    by_cases hagain : e = EAGAIN
    · subst hagain
      exact ⟨_, rfl, .again hclient hconn he⟩
    · rw [if_pos hagain]
      refine ⟨_, ?_, .failed hclient hconn e he hagain⟩
      have hconn' : (w.mallocs.heap.free w.heap.next).block (w.heap.next + 1) = some (.conn none) :=
        (Heap.block_free_of_ne (Nat.succ_ne_self _)).trans mallocs_conn
      have hfirst := free_ok (w := w.mallocs) mallocs_client
      have hsecond := free_ok (w := { w with heap := w.mallocs.heap.free w.heap.next }) hconn'
      change (w.mallocs.free w.heap.next >>= fun w' => w'.free (w.heap.next + 1) >>= fun w =>
        .ok (w, false)) = _
      rw [hfirst]
      change ({ w with heap := w.mallocs.heap.free w.heap.next }.free (w.heap.next + 1) >>= fun w =>
        .ok (w, false)) = _
      rw [hsecond]
      rfl
  | ok x =>
    obtain ⟨cFd, flags⟩ := x
    change ∃ r, acceptClient (w.acceptFd cFd flags) w.heap.next (w.heap.next + 1) cFd k = .ok r ∧ _
    rw [acceptClient_eq (w := w.acceptFd cFd flags) mallocs_conn]
    by_cases hcreate : k.acoCreate = false
    · exact ⟨_, if_pos hcreate, .noRoutine hclient hconn cFd flags he hcreate⟩
    · refine ⟨_, if_neg hcreate, .accepted hclient hconn cFd flags he ?_⟩
      rwa [Bool.not_eq_false] at hcreate

end UnixCodes.AcoHttpd
