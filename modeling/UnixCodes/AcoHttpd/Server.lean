import UnixCodes.AcoHttpd.Accept
import UnixCodes.Lib.Transition

/-! The event loop of `main`, with the routines it resumes. -/
namespace UnixCodes.AcoHttpd

open Posix Transition

/-- An event of a batch; the filter is always `EVFILT_READ`. -/
structure Item where
  ident : ℕ
  udata : Option ℕ

/-- Where the loop is, with the rest of the batch. -/
inductive Loop
  | wait
  | batch (evs : List Item)
  | accepting (evs : List Item)
  | inside (conn co : ℕ) (evs : List Item)
  | resumed (conn : ℕ) (evs : List Item)

structure Server where
  world : World
  loop : Loop

/-- The answers of the kernel; `main` is a step that needs none. -/
inductive Action
  | kevent (r : Except Errno (List Item))
  | accept (k : AcceptAnswers)
  | call (k : Answers)
  | main

/-- `aco_resume(conn->routine)` with the `udata` of an event as `conn`; the routine is returned. -/
def dispatch (w : World) (x : Item) : Except Fault (World × ℕ × ℕ) :=
  match x.udata with
  | none => .error .dangling
  | some conn => do
    let c ← w.conn conn
    let (arg, pc) ← w.routine c.routine
    match acoResume pc with
    | some pc => .ok (w.store c.routine (.routine arg pc), conn, c.routine)
    | none => .error .resumeEnded

/-- One call of the routine `co`; the flag says whether it keeps the control. -/
def World.call (w : World) (co : ℕ) (k : Answers) : Except Fault (World × Bool) := do
  let (arg, pc) ← w.routine co
  let w ←
    match pc with
    | .reading | .writing => do
      let _ ← w.conn arg
      .ok w
    | .deleting => pollDelete w arg k.delete
    | _ => .ok w
  .ok (w.store co (.routine arg (clientRoutine pc k)), decide (clientRoutine pc k).Running)

/-- The test of `is_end` after `aco_resume` has returned. -/
def reap (w : World) (conn : ℕ) : Except Fault World := do
  let c ← w.conn conn
  let (_, pc) ← w.routine c.routine
  if pc = .ended then do
    let w ← w.free c.routine
    w.free conn
  else .ok w

/-- `kevent` reports each registration at most once, and `EV_DELETE` of a registration succeeds. -/
inductive Server.Step (sFd : ℕ) : Server → Action → Except Fault Server → Prop
  | failed {w : World} (e : Errno) : Step sFd ⟨w, .wait⟩ (.kevent (.error e)) (.ok ⟨w, .wait⟩)
  | wait {w : World} (evs : List Item) (hlen : evs.length ≤ 1024)
      (hreg : ∀ x ∈ evs, w.fds.registration x.ident = some x.udata)
      (hnodup : (evs.map Item.ident).Nodup) :
      Step sFd ⟨w, .wait⟩ (.kevent (.ok evs)) (.ok ⟨w, .batch evs⟩)
  | done {w : World} : Step sFd ⟨w, .batch []⟩ .main (.ok ⟨w, .wait⟩)
  | acceptable {w : World} {x : Item} {evs : List Item} (hs : x.ident = sFd) :
      Step sFd ⟨w, .batch (x :: evs)⟩ .main (.ok ⟨w, .accepting evs⟩)
  | dispatch {w : World} {x : Item} {evs : List Item} (hs : x.ident ≠ sFd) :
      Step sFd ⟨w, .batch (x :: evs)⟩ .main
        ((dispatch w x).map fun r => ⟨r.1, .inside r.2.1 r.2.2 evs⟩)
  | accept {w : World} {evs : List Item} (k : AcceptAnswers) (hk : FreshFd w k) :
      Step sFd ⟨w, .accepting evs⟩ (.accept k)
        ((handleAccept w k).map fun r => ⟨r.1, if r.2 then .accepting evs else .batch evs⟩)
  | call {w : World} {conn co : ℕ} {evs : List Item} (k : Answers)
      (hdelete : ∀ c u, w.conn conn = .ok c → w.fds.registration c.fd = some u → k.delete = none) :
      Step sFd ⟨w, .inside conn co evs⟩ (.call k)
        ((w.call co k).map fun r => ⟨r.1, if r.2 then .inside conn co evs else .resumed conn evs⟩)
  | reap {w : World} {conn : ℕ} {evs : List Item} :
      Step sFd ⟨w, .resumed conn evs⟩ .main ((reap w conn).map fun w => ⟨w, .batch evs⟩)

/-- The listening socket is open and registered with `NULL`, and nothing else is registered. -/
def Server.Initial (sFd : ℕ) (s : Server) : Prop :=
  s.loop = .wait ∧ s.world.heap = .empty ∧ s.world.screened = [] ∧
    s.world.fds.registration = (fun fd => if fd = sFd then some none else none) ∧
    s.world.fds.closed = []

def server (sFd : ℕ) : System Server Action where
  Initial := Server.Initial sFd
  Step s a s' := Server.Step sFd s a (.ok s')

/-- A server at its first `kevent`. -/
def Server.start (sFd : ℕ) : Server :=
  ⟨⟨.empty, (Descriptors.empty.openFile sFd O_NONBLOCK).register sFd none, []⟩, .wait⟩

theorem start_initial (sFd : ℕ) : (Server.start sFd).Initial sFd := by
  refine ⟨rfl, rfl, rfl, ?_, rfl⟩
  funext fd
  by_cases h : fd = sFd
  · subst h
    rw [if_pos rfl]
    exact Descriptors.registration_register_self (Descriptors.file_openFile_self rfl)
  · rw [if_neg h]
    exact Descriptors.registration_register_of_ne h

end UnixCodes.AcoHttpd
