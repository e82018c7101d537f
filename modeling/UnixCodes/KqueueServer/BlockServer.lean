import UnixCodes.KqueueServer.Ownership

/-! The event loop of `server.c`, which reads from a client until it is gone, and its `client_addr`
blocks. `libaco_kqueue_server.c` has the same text. -/
namespace UnixCodes.KqueueServer

open Posix Transition

/-- It has all bits set, so that no other filter is told apart from it. -/
def EVFILT_READ : BitVec 16 := -1

/-- The branches of the loop over a batch. -/
inductive Branch
  | eof
  | accept
  | client
  | skip
  deriving DecidableEq

def branch (listenFd : ℕ) (filter : BitVec 16) (item : Item) : Branch :=
  if filter &&& EVFILT_READ = 0 ∧ item.eof then .eof
  else if item.ident = listenFd ∧ filter &&& EVFILT_READ ≠ 0 then .accept
  else if filter &&& EVFILT_READ ≠ 0 then .client
  else .skip

namespace World

/-- The event is deleted, the client closed, and `udata` freed. -/
def closeClient (w : World) (item : Item) : Except Fault World :=
  let w := { w with fds := (w.fds.deregister item.ident).close item.ident }
  match item.udata with
  | none => .ok w
  | some p => w.free p

/-- The kernel's part of `accept`. -/
def opened (w : World) (fd : ℕ) : World := { w with fds := w.fds.openFile fd 0 }

/-- The listen event with the one client that `accept` has returned, whose address has gone to the
block `clientAddr`; the program exits if `EV_ADD` fails. -/
def acceptClient (w : World) (clientAddr : ℕ) (a : Accepted) : Except Fault (World × Bool) :=
  if (w.heap.block clientAddr).isSome then
    if a.added then .ok ({ w with fds := w.fds.register a.fd (some clientAddr) }, true)
    else .ok (w, false)
  else .error .dangling

end World

/-- The answers of the system: `eof` is that to `EV_DELETE`, and `client` those to the loop over
`read`. -/
inductive BlockAction
  | kevent (r : Except Errno (List Item))
  | eof (deleted : Bool)
  | noMemory
  | acceptError (e : Errno)
  | accept (a : Accepted)
  | client (ks : List Answers)
  | main

/-- All registrations are for `EVFILT_READ`, so that the events are. -/
inductive Server.BlockStep (listenFd : ℕ) : Server → BlockAction → Except Fault Server → Prop
  | failed {w : World} (e : Errno) :
      BlockStep listenFd ⟨w, .wait⟩ (.kevent (.error e)) (.ok ⟨w, .exited⟩)
  | wait {w : World} (evs : List Item) (hlen : evs.length ≤ 1024)
      (hreg : ∀ x ∈ evs, w.fds.registration x.ident = some x.udata)
      (hnodup : (evs.map Item.ident).Nodup) :
      BlockStep listenFd ⟨w, .wait⟩ (.kevent (.ok evs)) (.ok ⟨w, .batch evs⟩)
  | done {w : World} : BlockStep listenFd ⟨w, .batch []⟩ .main (.ok ⟨w, .wait⟩)
  | closed {w : World} {x : Item} {evs : List Item} (hb : branch listenFd EVFILT_READ x = .eof)
      (hs : x.ident = listenFd) :
      BlockStep listenFd ⟨w, .batch (x :: evs)⟩ .main (.ok ⟨w, .exited⟩)
  | notDeleted {w : World} {x : Item} {evs : List Item}
      (hb : branch listenFd EVFILT_READ x = .eof) (hs : x.ident ≠ listenFd) :
      BlockStep listenFd ⟨w, .batch (x :: evs)⟩ (.eof false) (.ok ⟨w, .exited⟩)
  | eof {w : World} {x : Item} {evs : List Item} (hb : branch listenFd EVFILT_READ x = .eof)
      (hs : x.ident ≠ listenFd) :
      BlockStep listenFd ⟨w, .batch (x :: evs)⟩ (.eof true)
        ((w.closeClient x).map fun w => ⟨w, .batch evs⟩)
  | noMemory {w : World} {x : Item} {evs : List Item}
      (hb : branch listenFd EVFILT_READ x = .accept) :
      BlockStep listenFd ⟨w, .batch (x :: evs)⟩ .noMemory (.ok ⟨w, .exited⟩)
  | acceptError {w : World} {x : Item} {evs : List Item}
      (hb : branch listenFd EVFILT_READ x = .accept) (e : Errno) :
      BlockStep listenFd ⟨w, .batch (x :: evs)⟩ (.acceptError e) (.ok ⟨w.malloc, .exited⟩)
  | accept {w : World} {x : Item} {evs : List Item}
      (hb : branch listenFd EVFILT_READ x = .accept) (a : Accepted) (hfd : 0 < a.fd)
      (hfresh : w.fds.file a.fd = none) :
      BlockStep listenFd ⟨w, .batch (x :: evs)⟩ (.accept a)
        (((w.malloc.opened a.fd).acceptClient w.heap.next a).map
          fun r => ⟨r.1, if r.2 then .batch evs else .exited⟩)
  | client {w : World} {x : Item} {evs : List Item}
      (hb : branch listenFd EVFILT_READ x = .client) (ks : List Answers)
      (hleft : (serverRead ks).2 ≠ .running) :
      BlockStep listenFd ⟨w, .batch (x :: evs)⟩ (.client ks)
        ((if (serverRead ks).2 = .eof then w.closeClient x else .ok w).map
          fun w => ⟨w, .batch evs⟩)
  | skip {w : World} {x : Item} {evs : List Item} (hb : branch listenFd EVFILT_READ x = .skip) :
      BlockStep listenFd ⟨w, .batch (x :: evs)⟩ .main (.ok ⟨w, .batch evs⟩)

def blockServer (listenFd : ℕ) : System Server BlockAction where
  Initial s := s = .start listenFd
  Step s a s' := Server.BlockStep listenFd s a (.ok s')

variable {listenFd fd p : ℕ} {w w' : World} {s s' : Server} {x : Item} {a : Accepted}
  {act : BlockAction} {evs : List Item} {ks : List Answers} {r : Except Fault Server}

/-- The branch for the end of file is dead: the clients leave in the loop over `read`. -/
theorem branch_read (listenFd : ℕ) (x : Item) :
    branch listenFd EVFILT_READ x = if x.ident = listenFd then .accept else .client := by
  have hne : EVFILT_READ ≠ 0#16 := by decide
  simp [branch, hne]

theorem branch_ne_eof : branch listenFd EVFILT_READ x ≠ .eof := by
  rw [branch_read]
  split <;> simp

theorem ident_of_client (h : branch listenFd EVFILT_READ x = .client) : x.ident ≠ listenFd := by
  intro he
  rw [branch_read, if_pos he] at h
  cases h

/-- The loop over `read` is only left at the end of file. -/
theorem serverRead_eof (hleft : (serverRead ks).2 ≠ .running) : (serverRead ks).2 = .eof := by
  unfold serverRead at hleft ⊢
  rw [serverDrain_eq] at hleft ⊢
  exact noBlockDrain_exit.resolve_left hleft

/-- The open files are the registered ones. -/
def Registered (w : World) : Prop := ∀ fd f, w.fds.file fd = some f → w.fds.registration fd ≠ none

structure Serving (listenFd : ℕ) (w : World) : Prop where
  idle : Idle listenFd w
  registered : Registered w

/-- An exited server has nothing to keep. -/
def BlockSound (listenFd : ℕ) (s : Server) : Prop :=
  match s.loop with
  | .wait => Serving listenFd s.world
  | .batch evs => Serving listenFd s.world ∧ Pending s.world evs
  | .exited => True

theorem acceptClient_eq (w : World) (a : Accepted) :
    (w.malloc.opened a.fd).acceptClient w.heap.next a = .ok (if a.added then
      ({ w.malloc with fds := (w.fds.openFile a.fd 0).register a.fd (some w.heap.next) }, true)
      else ({ w.malloc with fds := w.fds.openFile a.fd 0 }, false)) := by
  have hsome : ((w.malloc.opened a.fd).heap.block w.heap.next).isSome := by
    simp [World.malloc, World.opened]
  unfold World.acceptClient
  rw [if_pos hsome]
  cases a.added <;> rfl

/-- The one client of a listen event gets the new block. -/
theorem serving_accept (h : Serving listenFd w) (hfd : 0 < fd) (hfresh : w.fds.file fd = none) :
    Serving listenFd
      { w.malloc with fds := (w.fds.openFile fd 0).register fd (some w.heap.next) } := by
  constructor
  · have hsome : (w.malloc.heap.block w.heap.next).isSome := by simp [World.malloc]
    have hturn := acceptTurn_added (a := ⟨fd, true⟩) hsome rfl
    have hfresh' : w.malloc.fds.file (Accepted.mk fd true).fd = none := hfresh
    obtain ⟨w', he, hidle⟩ := idle_accept_one h.idle (.turn hfd hfresh' hturn .done)
    cases he
    exact hidle
  · intro n f hf
    dsimp only at hf ⊢
    by_cases he : n = fd
    · rw [he, Descriptors.registration_register_self (Descriptors.file_openFile_self hfresh)]
      simp
    · rw [Descriptors.registration_register_of_ne he]
      refine h.registered n f ?_
      have hold : ((w.fds.openFile fd 0).register fd (some w.heap.next)).file n = w.fds.file n :=
        if_neg fun hc => he hc.1
      rwa [hold] at hf

theorem acceptClient_registration (hfresh : w.fds.file a.fd = none) {u : Option ℕ}
    (hreg : w.fds.registration fd = some u) :
    ((w.fds.openFile a.fd 0).register a.fd (some w.heap.next)).registration fd = some u := by
  have hne : fd ≠ a.fd := by
    rintro rfl
    rw [w.fds.registered_open a.fd hfresh] at hreg
    cases hreg
  rw [Descriptors.registration_register_of_ne hne]
  exact hreg

theorem closeClient_ok (hu : x.udata = some p) (hp : (w.heap.block p).isSome) :
    w.closeClient x =
      .ok { heap := w.heap.free p, fds := (w.fds.deregister x.ident).close x.ident } := by
  unfold World.closeClient
  rw [hu]
  exact free_ok (w := { w with fds := (w.fds.deregister x.ident).close x.ident }) hp

theorem serving_close (h : Serving listenFd w) (hreg : w.fds.registration fd = some (some p)) :
    Serving listenFd { heap := w.heap.free p, fds := (w.fds.deregister fd).close fd } := by
  refine ⟨idle_delete h.idle hreg, fun n f hf => ?_⟩
  have hne : n ≠ fd := by
    rintro rfl
    simp [Descriptors.close] at hf
  dsimp only at hf ⊢
  rw [Descriptors.file_close_of_ne hne] at hf
  rw [registration_removed hne]
  exact h.registered n f hf

/-- The event of a client ends with the client gone, and its block with it. -/
theorem client_served (h : Serving listenFd w) (hp : Pending w (x :: evs))
    (hne : x.ident ≠ listenFd) :
    ∃ w', w.closeClient x = .ok w' ∧ Serving listenFd w' ∧ Pending w' evs ∧
      w'.fds.file x.ident = none ∧ (∃ p, x.udata = some p ∧ p ∈ w'.heap.freed) ∧
      ∀ n, n ≠ x.ident → w'.fds.file n = w.fds.file n ∧
        w'.fds.registration n = w.fds.registration n := by
  obtain ⟨p, hu, hreg, hsome⟩ := hp.udata h.idle hne
  refine ⟨_, closeClient_ok hu hsome, serving_close h hreg, ⟨hp.tail.nodup, fun y hy => ?_⟩, ?_,
    ⟨p, hu, ?_⟩, fun n hn => ⟨?_, ?_⟩⟩
  · refine (registration_removed ?_).trans (hp.tail.registered y hy)
    intro he
    exact (List.nodup_cons.mp hp.nodup).1 (he ▸ List.mem_map_of_mem hy)
  · exact if_pos rfl
  · simp [Heap.free, hsome]
  · exact Descriptors.file_close_of_ne hn
  · exact registration_removed hn

theorem blockSound_step (hs : Server.BlockStep listenFd s act r) (h : BlockSound listenFd s) :
    ∃ t, r = .ok t ∧ BlockSound listenFd t := by
  cases hs with
  | failed e => exact ⟨_, rfl, trivial⟩
  | wait evs hlen hreg hnodup => exact ⟨_, rfl, h, hnodup, hreg⟩
  | done => exact ⟨_, rfl, h.1⟩
  | closed hb | notDeleted hb | eof hb => exact absurd hb branch_ne_eof
  | noMemory hb => exact ⟨_, rfl, trivial⟩
  | acceptError hb e => exact ⟨_, rfl, trivial⟩
  | @accept w x evs hb a hfd hfresh =>
    rw [acceptClient_eq]
    refine ⟨_, rfl, ?_⟩
    cases ha : a.added with
    | true =>
      refine ⟨serving_accept h.1 hfd hfresh, h.2.tail.nodup, fun y hy => ?_⟩
      exact acceptClient_registration hfresh (h.2.tail.registered y hy)
    | false => trivial
  | @client w x evs hb ks hleft =>
    rw [if_pos (serverRead_eof hleft)]
    obtain ⟨w', hw, hserving, hpending, -⟩ := client_served h.1 h.2 (ident_of_client hb)
    rw [hw]
    exact ⟨_, rfl, hserving, hpending⟩
  | skip hb =>
    rw [branch_read] at hb
    split at hb <;> cases hb

theorem blockSound_start (listenFd : ℕ) : BlockSound listenFd (.start listenFd) := by
  refine ⟨(sound_initial (start_initial listenFd)).idle, fun fd f hf => ?_⟩
  have hfile : (Descriptors.empty.openFile listenFd 0).file fd = some f := hf
  have he : fd = listenFd := by
    by_contra hne
    simp [Descriptors.openFile, Descriptors.empty, hne] at hfile
  rw [he]
  have hself : (Descriptors.empty.openFile listenFd 0).file listenFd =
      some ⟨(Descriptors.empty : Descriptors (Option ℕ)).opened, 0⟩ :=
    Descriptors.file_openFile_self rfl
  have hreg : (Server.start listenFd).world.fds.registration listenFd = some none :=
    Descriptors.registration_register_self hself
  exact fun hnone => Option.some_ne_none _ (hreg.symm.trans hnone)

theorem blockSound_reachable (h : (blockServer listenFd).Reachable s) : BlockSound listenFd s := by
  apply System.reachable_invariant ?_ ?_ h
  · rintro _ rfl
    exact blockSound_start listenFd
  · intro s a t hstep hs
    obtain ⟨t', ht, hsound⟩ := blockSound_step hstep hs
    cases ht
    exact hsound

theorem registered_iff (h : Serving listenFd w) :
    (w.fds.file fd).isSome ↔ (w.fds.registration fd).isSome := by
  constructor
  · intro hf
    obtain ⟨f, hf⟩ := Option.isSome_iff_exists.mp hf
    exact Option.isSome_iff_ne_none.mpr (h.registered fd f hf)
  · intro hr
    obtain ⟨u, hu⟩ := Option.isSome_iff_exists.mp hr
    obtain ⟨f, hf⟩ := Descriptors.open_of_registered hu
    rw [hf]
    rfl

theorem BlockSound.serving (h : BlockSound listenFd s) (hl : s.loop ≠ .exited) :
    Serving listenFd s.world := by
  obtain ⟨w, loop⟩ := s
  cases loop with
  | wait => exact h
  | batch evs => exact h.1
  | exited => exact absurd rfl hl

/-- As long as the server runs its blocks are owned and its open files are the registered ones, no
step misuses a pointer, and the event of a client closes that client, frees its block and leaves
the others alone. -/
theorem blockServer_owned (h : (blockServer listenFd).Reachable s) :
    (s.loop ≠ .exited → Owned listenFd s.world ∧
      ∀ fd, (s.world.fds.file fd).isSome ↔ (s.world.fds.registration fd).isSome) ∧
    ∀ a r, Server.BlockStep listenFd s a r → ∃ t, r = .ok t ∧
      ∀ ks x evs, a = .client ks → s.loop = .batch (x :: evs) →
        t.loop = .batch evs ∧ t.world.fds.file x.ident = none ∧
          (∃ p, x.udata = some p ∧ p ∈ t.world.heap.freed) ∧
          ∀ n, n ≠ x.ident → t.world.fds.file n = s.world.fds.file n ∧
            t.world.fds.registration n = s.world.fds.registration n := by
  have hs := blockSound_reachable h
  refine ⟨fun hl => ?_, fun a r hstep => ?_⟩
  · have hserving := hs.serving hl
    exact ⟨hserving.idle.owned, fun fd => registered_iff hserving⟩
  · obtain ⟨t, rfl, -⟩ := blockSound_step hstep hs
    refine ⟨t, rfl, ?_⟩
    rintro ks x evs rfl hl
    generalize hr : Except.ok t = r at hstep
    cases hstep with
    | @client w y evs' hb ks hleft =>
      cases hl
      obtain ⟨w', hw, -, -, hfile, hfreed, hothers⟩ :=
        client_served hs.1 hs.2 (ident_of_client hb)
      rw [if_pos (serverRead_eof hleft), hw] at hr
      cases hr
      exact ⟨rfl, hfile, hfreed, hothers⟩

theorem step_added (fd : ℕ) (hb : branch listenFd EVFILT_READ x = .accept) (hfd : 0 < fd)
    (hfresh : w.fds.file fd = none) :
    (blockServer listenFd).Step ⟨w, .batch (x :: evs)⟩ (.accept ⟨fd, true⟩)
      ⟨{ w.malloc with fds := (w.fds.openFile fd 0).register fd (some w.heap.next) },
        .batch evs⟩ := by
  have hstep : Server.BlockStep listenFd ⟨w, .batch (x :: evs)⟩ (.accept ⟨fd, true⟩) _ :=
    .accept hb ⟨fd, true⟩ hfd hfresh
  rwa [acceptClient_eq] at hstep

/-- A client comes. -/
theorem blockServer_owned_comes : ∃ s : Server, (blockServer 3).Reachable s ∧
    s.world.fds.registration 5 = some (some 0) ∧ Owned 3 s.world := by
  have hr : ∃ s : Server, (blockServer 3).Reachable s ∧ s.loop ≠ .exited ∧
      s.world.fds.registration 5 = some (some 0) := by
    refine ⟨_, ⟨_, _, rfl,
      .stepL (.wait [⟨3, none, 1, false⟩] (by decide) (List.forall_mem_singleton.mpr rfl)
        (by decide)) <|
      .stepL (step_added 5 (branch_read 3 _) (by decide) rfl) .refl⟩, by simp, rfl⟩
  obtain ⟨s, hs, hl, hreg⟩ := hr
  exact ⟨s, hs, hreg, ((blockServer_owned hs).1 hl).1⟩

end UnixCodes.KqueueServer
