import UnixCodes.AcoHttpd.Lifecycle
import UnixCodes.Libaco.Handles

/-! `aco_httpd` on `libaco`: what the loop and the routines call in the library. -/
namespace UnixCodes.AcoHttpd

open Posix Transition
open Libaco (Arch Machine Op Handle Usage Malloc Bytes Reg Allowed perform performCall coSystem)

/-- The call of the library in a step of the server; `k` is `loop->s_stack`, and `fp` the address of
`client_routine`. -/
inductive LibCall (sFd k fp : ℕ) : Server → Action → Option Op → Prop
  | kevent {w : World} (r : Except Errno (List Item)) : LibCall sFd k fp ⟨w, .wait⟩ (.kevent r) none
  | done {w : World} : LibCall sFd k fp ⟨w, .batch []⟩ .main none
  | acceptable {w : World} {x : Item} {evs : List Item} (hs : x.ident = sFd) :
      LibCall sFd k fp ⟨w, .batch (x :: evs)⟩ .main none
  | create {w : World} {evs : List Item} {ka : AcceptAnswers} (hclient : ka.mallocClient = true)
      (hconn : ka.mallocConn = true) (cFd : ℕ) (flags : BitVec 32)
      (he : ka.accept = .ok (cFd, flags)) (hcreate : ka.acoCreate = true) (malloc : Malloc) :
      LibCall sFd k fp ⟨w, .accepting evs⟩ (.accept ka)
        (some (.create (w.heap.next + 2) k 0 fp (w.heap.next + 1) malloc))
  | noCreate {w : World} {evs : List Item} {ka : AcceptAnswers}
      (h : ka.mallocClient = true → ka.mallocConn = true → (∃ x, ka.accept = .ok x) →
        ka.acoCreate = false) : LibCall sFd k fp ⟨w, .accepting evs⟩ (.accept ka) none
  | resume {w : World} {x : Item} {evs : List Item} {conn : ℕ} {c : Conn} (hs : x.ident ≠ sFd)
      (hu : x.udata = some conn) (hc : w.conn conn = .ok c) (malloc : Malloc) :
      LibCall sFd k fp ⟨w, .batch (x :: evs)⟩ .main (some (.resume c.routine malloc))
  | yield {w : World} {conn co arg : ℕ} {evs : List Item} (hr : w.routine co = .ok (arg, .yielding))
      (ks : Answers) : LibCall sFd k fp ⟨w, .inside conn co evs⟩ (.call ks) (some .yield)
  | exit {w : World} {conn co arg : ℕ} {evs : List Item} (hr : w.routine co = .ok (arg, .exiting))
      (ks : Answers) : LibCall sFd k fp ⟨w, .inside conn co evs⟩ (.call ks) (some .exit)
  | goOn {w : World} {conn co arg : ℕ} {evs : List Item} {pc : Pc}
      (hr : w.routine co = .ok (arg, pc)) (hyield : pc ≠ .yielding) (hexit : pc ≠ .exiting)
      (ks : Answers) : LibCall sFd k fp ⟨w, .inside conn co evs⟩ (.call ks) none
  | destroy {w : World} {conn arg : ℕ} {evs : List Item} {c : Conn} (hc : w.conn conn = .ok c)
      (hr : w.routine c.routine = .ok (arg, .ended)) :
      LibCall sFd k fp ⟨w, .resumed conn evs⟩ .main (some (.destroy c.routine))
  | keep {w : World} {conn arg : ℕ} {evs : List Item} {c : Conn} {pc : Pc}
      (hc : w.conn conn = .ok c) (hr : w.routine c.routine = .ok (arg, pc)) (hpc : pc ≠ .ended) :
      LibCall sFd k fp ⟨w, .resumed conn evs⟩ .main none

/-- The server in its thread. -/
structure Process where
  server : Server
  machine : Machine

/-- Whoever has the control computes until the server makes a step, with its call of the library. -/
structure Turn where
  action : Action
  reg : Reg
  bytes : Bytes
  call : Option Op

def Turn.ops (t : Turn) : List Op := .compute t.reg t.bytes :: t.call.toList

/-- A turn of code that stays within its stack. -/
structure Process.Step (A : Arch) (protector sFd k fp : ℕ) (x : Process) (t : Turn) (y : Process) :
    Prop where
  within : Allowed A x.machine (.compute t.reg t.bytes)
  server : Server.Step sFd x.server t.action (.ok y.server)
  call : LibCall sFd k fp x.server t.action t.call
  machine : ∃ m, perform A protector x.machine (.compute t.reg t.bytes) = .ok m ∧
    performCall A protector m t.call = .ok y.machine

/-- After `aco_thread_init`, `poll_init` has called `aco_share_stack_new` for `1 << 10` bytes, which
asks for a guard page. -/
def SetUp (A : Arch) (protector k : ℕ) (m : Machine) : Prop :=
  ∃ m₀ pgsz addr junk, (coSystem A protector).Initial m₀ ∧ (coSystem A protector).Run m₀
    [.threadInit, .shareStackNew k (1 <<< 10) true pgsz addr junk] m

def process (A : Arch) (protector sFd k fp : ℕ) : System Process Turn where
  Initial x := Server.Initial sFd x.server ∧ SetUp A protector k x.machine
  Step := Process.Step A protector sFd k fp

variable {A : Arch} {protector sFd k fp p q arg : ℕ} {s s' : Server} {a : Action}
  {call : Option Op} {h : Heap Block} {b : Block} {pc : Pc} {w : World} {ka : AcceptAnswers}

/-- The routine at a block, with its argument. -/
def routineAt (h : Heap Block) (p : ℕ) : Option (ℕ × Pc) :=
  match h.block p with
  | some (.routine arg pc) => some (arg, pc)
  | _ => none

/-- What the library has been given for a routine, and whether it has ended. -/
def handleAt (k fp : ℕ) (h : Heap Block) (p : ℕ) : Option Handle :=
  (routineAt h p).map fun r => ⟨r.1, fp, decide (r.2 = .ended), k⟩

def Loop.running : Loop → Option ℕ
  | .inside _ co _ => some co
  | _ => none

def Server.usage (k fp : ℕ) (s : Server) : Usage := ⟨s.loop.running, handleAt k fp s.world.heap⟩

/-- A block that is no routine. -/
def Block.Plain : Block → Prop
  | .routine _ _ => False
  | _ => True

theorem routineAt_eq_some :
    routineAt h p = some (arg, pc) ↔ h.block p = some (.routine arg pc) := by
  unfold routineAt
  rcases h.block p with _ | _ | c | ⟨arg', pc'⟩ <;> simp

theorem routineAt_plain (hp : h.block p = some b) (hb : b.Plain) : routineAt h p = none := by
  unfold routineAt
  rw [hp]
  cases b with
  | routine => exact hb.elim
  | sockaddr => rfl
  | conn => rfl

theorem routineAt_none (hp : h.block p = none) : routineAt h p = none := by
  unfold routineAt
  rw [hp]

theorem routineAt_congr {h' : Heap Block} (hp : h'.block p = h.block p) :
    routineAt h' p = routineAt h p := by
  unfold routineAt
  rw [hp]

theorem handleAt_none (hp : h.block p = none) : handleAt k fp h p = none := by
  rw [handleAt, routineAt_none hp]
  rfl

theorem handleAt_plain (hp : h.block p = some b) (hb : b.Plain) : handleAt k fp h p = none := by
  rw [handleAt, routineAt_plain hp hb]
  rfl

theorem handleAt_alloc (hb : b.Plain) : handleAt k fp (h.alloc b) = handleAt k fp h := by
  funext q
  by_cases hq : q = h.next
  · rw [hq, handleAt_plain Heap.block_alloc_next hb, handleAt_none Heap.block_next]
  · rw [handleAt, handleAt, routineAt_congr (Heap.block_alloc_of_ne hq)]

theorem handleAt_alloc_routine :
    handleAt k fp (h.alloc (.routine arg pc)) =
      Function.update (handleAt k fp h) h.next (some ⟨arg, fp, decide (pc = .ended), k⟩) := by
  funext q
  by_cases hq : q = h.next
  · rw [hq, Function.update_self, handleAt, routineAt_eq_some.mpr Heap.block_alloc_next]
    rfl
  · rw [Function.update_of_ne hq, handleAt, routineAt_congr (Heap.block_alloc_of_ne hq)]
    rfl

theorem handleAt_free : handleAt k fp (h.free p) = Function.update (handleAt k fp h) p none := by
  funext q
  by_cases hq : q = p
  · rw [hq, Function.update_self, handleAt_none Heap.block_free_self]
  · rw [Function.update_of_ne hq, handleAt, routineAt_congr (Heap.block_free_of_ne hq)]
    rfl

theorem handleAt_free_plain (hp : h.block p = some b) (hb : b.Plain) :
    handleAt k fp (h.free p) = handleAt k fp h := by
  have hnone : handleAt k fp h p = none := handleAt_plain hp hb
  rw [handleAt_free, ← hnone, Function.update_eq_self]

theorem handleAt_store (hp : h.block p = some b) (arg : ℕ) (pc : Pc) :
    handleAt k fp (h.store p (.routine arg pc)) =
      Function.update (handleAt k fp h) p (some ⟨arg, fp, decide (pc = .ended), k⟩) := by
  funext q
  by_cases hq : q = p
  · rw [hq, Function.update_self, handleAt, routineAt_eq_some.mpr (Heap.block_store_self hp)]
    rfl
  · rw [Function.update_of_ne hq, handleAt, routineAt_congr (Heap.block_store_of_ne hq)]
    rfl

theorem handleAt_store_plain {b' : Block} (hp : h.block p = some b) (hb : b.Plain)
    (hb' : b'.Plain) : handleAt k fp (h.store p b') = handleAt k fp h := by
  funext q
  by_cases hq : q = p
  · rw [hq, handleAt_plain hp hb, handleAt_plain (Heap.block_store_self hp) hb']
  · rw [handleAt, handleAt, routineAt_congr (Heap.block_store_of_ne hq)]

theorem handleAt_routine (hp : h.block p = some (.routine arg pc)) :
    handleAt k fp h p = some ⟨arg, fp, decide (pc = .ended), k⟩ := by
  rw [handleAt, routineAt_eq_some.mpr hp]
  rfl

/-- A routine that goes on stays what it is for the library. -/
theorem handleAt_store_same {pc' : Pc} (hp : h.block p = some (.routine arg pc))
    (hpc : pc' = .ended ↔ pc = .ended) :
    handleAt k fp (h.store p (.routine arg pc')) = handleAt k fp h := by
  rw [handleAt_store hp, Function.update_eq_self_iff]
  rw [handleAt_routine hp]
  simp [hpc]

theorem handleAt_mallocs : handleAt k fp w.mallocs.heap = handleAt k fp w.heap := by
  have hsockaddr : handleAt k fp (w.malloc .sockaddr).heap = handleAt k fp w.heap :=
    handleAt_alloc (b := .sockaddr) trivial
  exact (handleAt_alloc (b := .conn none) trivial).trans hsockaddr

/-- A turn of `handle_accept` that ends without a routine. -/
theorem handleAt_noCreate {r : World × Bool} (h : AcceptEffect w ka r)
    (hcreate : ka.mallocClient = true → ka.mallocConn = true → (∃ x, ka.accept = .ok x) →
      ka.acoCreate = false) : handleAt k fp r.1.heap = handleAt k fp w.heap := by
  cases h with
  | noClient => rfl
  | noConn => exact handleAt_alloc (b := .sockaddr) trivial
  | failed =>
    have hfirst : handleAt k fp (w.mallocs.heap.free w.heap.next) = handleAt k fp w.heap :=
      (handleAt_free_plain mallocs_client trivial).trans handleAt_mallocs
    refine (handleAt_free_plain (b := .conn none) ?_ trivial).trans hfirst
    exact (Heap.block_free_of_ne (Nat.succ_ne_self _)).trans mallocs_conn
  | again => exact handleAt_mallocs
  | noRoutine => exact (handleAt_free_plain mallocs_conn trivial).trans handleAt_mallocs
  | accepted hclient hconn cFd flags he hyes =>
    rw [hcreate hclient hconn ⟨_, he⟩] at hyes
    cases hyes

/-- The routine of a connection is made for its `conn_t`. -/
theorem handleAt_create {r : World × Bool} {cFd : ℕ} {flags : BitVec 32} (h : AcceptEffect w ka r)
    (hclient : ka.mallocClient = true) (hconn : ka.mallocConn = true)
    (he : ka.accept = .ok (cFd, flags)) (hcreate : ka.acoCreate = true) :
    handleAt k fp r.1.heap = Function.update (handleAt k fp w.heap) (w.heap.next + 2)
      (some ⟨w.heap.next + 1, fp, false, k⟩) := by
  cases h with
  | noClient hno => simp [hclient] at hno
  | noConn _ hno => simp [hconn] at hno
  | failed _ _ e hno => simp [he] at hno
  | again _ _ hno => simp [he] at hno
  | noRoutine _ _ _ _ _ hno => simp [hcreate] at hno
  | accepted _ _ cFd flags =>
    have hmallocs : handleAt k fp w.mallocs.heap = handleAt k fp w.heap := handleAt_mallocs
    rw [pollAdd_heap, ← hmallocs]
    have hheap : ((w.acceptFd cFd flags).screen cFd ka).heap = w.mallocs.heap := acceptFd_heap
    unfold World.assemble World.store World.malloc
    dsimp only
    rw [hheap]
    have hstore : handleAt k fp ((w.mallocs.heap.alloc (.routine (w.heap.next + 1) .created)).store
        (w.heap.next + 1) (.conn (some ⟨cFd, w.mallocs.heap.next, w.heap.next⟩))) =
        handleAt k fp (w.mallocs.heap.alloc (.routine (w.heap.next + 1) .created)) :=
      handleAt_store_plain (Heap.block_alloc mallocs_conn) trivial trivial
    exact hstore.trans handleAt_alloc_routine

theorem dispatch_uses {x : Item} {evs : List Item} {conn : ℕ} {c : Conn} (hs : Sound sFd s)
    (hloop : s.loop = .batch (x :: evs)) (hne : x.ident ≠ sFd) (hu : x.udata = some conn)
    (hc : s.world.conn conn = .ok c)
    (hok : (dispatch s.world x).map (fun r => Server.mk r.1 (.inside r.2.1 r.2.2 evs)) = .ok s')
    (malloc : Malloc) :
    Usage.Step k (s.usage k fp) (some (.resume c.routine malloc)) (s'.usage k fp) := by
  obtain ⟨w, loop⟩ := s
  cases hloop
  obtain ⟨hclients, hpending⟩ := hs
  obtain ⟨n, u⟩ := x
  cases hu
  obtain ⟨c', pc, hserved, hwaiting⟩ :=
    hclients.served n conn (hpending.registered _ List.mem_cons_self)
  rw [conn_ok hserved.conn] at hc
  cases hc
  have hw : pc.Waiting := hwaiting (by simp)
  rw [dispatch_ok hserved hw] at hok
  cases hok
  have hend : pc ≠ .ended := ne_ended_of_waiting hw
  have hafter : Server.usage k fp ⟨w.store c.routine (.routine conn .reading),
      .inside conn c.routine evs⟩ = ⟨some c.routine, handleAt k fp w.heap⟩ :=
    congrArg (Usage.mk _) (handleAt_store_same hserved.routine (by simp [hend]))
  rw [hafter]
  exact .resume rfl (handleAt_routine hserved.routine) (decide_eq_false hend) malloc

theorem accept_uses {evs : List Item}
    (hcall : LibCall sFd k fp ⟨w, .accepting evs⟩ (.accept ka) call)
    (hok : (handleAccept w ka).map (fun r => Server.mk r.1
      (if r.2 then .accepting evs else .batch evs)) = .ok s') :
    Usage.Step k (Server.usage k fp ⟨w, .accepting evs⟩) call (s'.usage k fp) := by
  obtain ⟨⟨w', again⟩, hr, heff⟩ := handleAccept_effect (w := w) (k := ka)
  rw [hr] at hok
  cases hok
  have hrunning : (if again then Loop.accepting evs else .batch evs).running = none := by
    cases again <;> rfl
  cases hcall with
  | create hclient hconn cFd flags he hcreate malloc =>
    have hafter : Server.usage k fp ⟨w', if again then .accepting evs else .batch evs⟩ =
        ⟨none, Function.update (handleAt k fp w.heap) (w.heap.next + 2)
          (some ⟨w.heap.next + 1, fp, false, k⟩)⟩ :=
      congrArg₂ Usage.mk hrunning (handleAt_create heff hclient hconn he hcreate)
    rw [hafter]
    refine .create (u := ⟨none, handleAt k fp w.heap⟩) ?_ 0 fp (w.heap.next + 1) malloc
    exact handleAt_none (w.heap.fresh (w.heap.next + 2) (by omega))
  | noCreate hcreate =>
    have hafter : Server.usage k fp ⟨w', if again then .accepting evs else .batch evs⟩ =
        ⟨none, handleAt k fp w.heap⟩ :=
      congrArg₂ Usage.mk hrunning (handleAt_noCreate heff hcreate)
    rw [hafter]
    exact .none

theorem goOn_running {ks : Answers} {pc' : Pc} (h : RoutineStep ks pc pc') (hyield : pc ≠ .yielding)
    (hexit : pc ≠ .exiting) : pc'.Running := by
  cases h with
  | yield => exact (hyield rfl).elim
  | exit => exact (hexit rfl).elim
  | _ => trivial

theorem Pc.Running.ne_ended (h : pc.Running) : pc ≠ .ended := by
  rintro rfl
  exact h

theorem call_uses {conn co : ℕ} {evs : List Item} {ks : Answers}
    (hs : Sound sFd ⟨w, .inside conn co evs⟩)
    (hdelete : ∀ c u, w.conn conn = .ok c → w.fds.registration c.fd = some u → ks.delete = none)
    (hcall : LibCall sFd k fp ⟨w, .inside conn co evs⟩ (.call ks) call)
    (hok : (w.call co ks).map (fun r => Server.mk r.1
      (if r.2 then .inside conn co evs else .resumed conn evs)) = .ok s') :
    Usage.Step k (Server.usage k fp ⟨w, .inside conn co evs⟩) call (s'.usage k fp) := by
  obtain ⟨-, -, c, pc, hcur, hrun, hstage⟩ := hs
  have hroutine := routine_ok hcur.routine
  have hhandle : handleAt k fp w.heap co = some ⟨conn, fp, decide (pc = .ended), k⟩ :=
    handleAt_routine hcur.routine
  cases hcall with
  | yield hr =>
    cases hroutine.symm.trans hr
    rw [call_ok hcur (by simp)] at hok
    cases hok
    have hafter : Server.usage k fp ⟨w.store co (.routine conn .yielded), .resumed conn evs⟩ =
        ⟨none, handleAt k fp w.heap⟩ :=
      congrArg (Usage.mk _) (handleAt_store_same hcur.routine (by simp))
    refine (congrArg (Usage.Step k _ _) hafter).mpr ?_
    exact .yield rfl
  | exit hr =>
    cases hroutine.symm.trans hr
    rw [call_ok hcur (by simp)] at hok
    cases hok
    have hafter : Server.usage k fp ⟨w.store co (.routine conn .ended), .resumed conn evs⟩ =
        ⟨none, Function.update (handleAt k fp w.heap) co (some ⟨conn, fp, true, k⟩)⟩ :=
      congrArg (Usage.mk _) (handleAt_store hcur.routine conn .ended)
    refine (congrArg (Usage.Step k _ _) hafter).mpr ?_
    exact .exit (u := ⟨some co, handleAt k fp w.heap⟩) rfl hhandle
  | goOn hr hyield hexit =>
    cases hroutine.symm.trans hr
    have hgoes : (clientRoutine pc ks).Running :=
      goOn_running (clientRoutine_step hrun) hyield hexit
    by_cases hdel : pc = .deleting
    · subst hdel
      obtain ⟨-, hserved, -⟩ := hstage.resolve_right (by simp)
      rw [call_delete hcur hserved (hdelete c _ (conn_ok hcur.block) hserved.registered)] at hok
      cases hok
      have hfreed : handleAt k fp (w.release c).heap = handleAt k fp w.heap :=
        handleAt_free_plain hserved.sa trivial
      have hsame : handleAt k fp ((w.release c).heap.store co (.routine conn .exiting)) =
          handleAt k fp (w.release c).heap :=
        handleAt_store_same (hcur.release hserved.sa).routine (by simp)
      have hafter : Server.usage k fp ⟨(w.release c).store co (.routine conn .exiting),
          .inside conn co evs⟩ = ⟨some co, handleAt k fp w.heap⟩ :=
        congrArg (Usage.mk _) (hsame.trans hfreed)
      refine (congrArg (Usage.Step k _ _) hafter).mpr ?_
      exact .none
    · rw [call_ok hcur hdel, decide_eq_true hgoes] at hok
      cases hok
      have hafter : Server.usage k fp ⟨w.store co (.routine conn (clientRoutine pc ks)),
          .inside conn co evs⟩ = ⟨some co, handleAt k fp w.heap⟩ :=
        congrArg (Usage.mk _) (handleAt_store_same hcur.routine
          (iff_of_false hgoes.ne_ended hrun.ne_ended))
      refine (congrArg (Usage.Step k _ _) hafter).mpr ?_
      exact .none

theorem reap_uses {conn : ℕ} {evs : List Item} (hs : Sound sFd ⟨w, .resumed conn evs⟩)
    (hcall : LibCall sFd k fp ⟨w, .resumed conn evs⟩ .main call)
    (hok : (reap w conn).map (fun w => Server.mk w (.batch evs)) = .ok s') :
    Usage.Step k (Server.usage k fp ⟨w, .resumed conn evs⟩) call (s'.usage k fp) := by
  obtain ⟨-, -, c, pc, hcur, -⟩ := hs
  have hconn := conn_ok hcur.block
  have hroutine := routine_ok hcur.routine
  cases hcall with
  | destroy hc hr =>
    cases hconn.symm.trans hc
    cases hroutine.symm.trans hr
    rw [reap_ended hcur] at hok
    cases hok
    have hblock : (w.heap.free c.routine).block conn = some (.conn (some c)) :=
      (Heap.block_free_of_ne hcur.conn_ne).trans hcur.block
    have hafter : Server.usage k fp ⟨w.bury conn c.routine, .batch evs⟩ =
        ⟨none, Function.update (handleAt k fp w.heap) c.routine none⟩ :=
      congrArg (Usage.mk _) ((handleAt_free_plain hblock trivial).trans handleAt_free)
    refine (congrArg (Usage.Step k _ _) hafter).mpr ?_
    exact .destroy (u := ⟨none, handleAt k fp w.heap⟩) (by simp) (handleAt_routine hcur.routine)
  | keep hc hr hpc =>
    cases hconn.symm.trans hc
    cases hroutine.symm.trans hr
    rw [reap_waiting hcur hpc] at hok
    cases hok
    exact .none

/-- The server keeps to the protocol of use. -/
theorem server_uses {r : Except Fault Server} (hs : Sound sFd s) (hstep : Server.Step sFd s a r)
    (hok : r = .ok s') (hcall : LibCall sFd k fp s a call) :
    Usage.Step k (s.usage k fp) call (s'.usage k fp) := by
  cases hstep with
  | failed | wait | done =>
    cases hok
    cases hcall
    exact .none
  | acceptable heq =>
    cases hok
    cases hcall with
    | acceptable => exact .none
    | resume hne => exact absurd heq hne
  | dispatch hne =>
    cases hcall with
    | acceptable heq => exact absurd heq hne
    | resume _ hu hc malloc => exact dispatch_uses hs rfl hne hu hc hok malloc
  | accept ka _ => exact accept_uses hcall hok
  | call ks hdelete => exact call_uses hs hdelete hcall hok
  | reap => exact reap_uses hs hcall hok

end UnixCodes.AcoHttpd
