import Mathlib.Data.Set.Card
import UnixCodes.AcoHttpd.Lifecycle

/-! The blocks and the descriptors of `aco_httpd` over a whole run: what its clients need, and what
`handle_accept` has lost. -/
namespace UnixCodes.AcoHttpd

open Posix Transition

variable {sFd fd conn co base m l : ℕ} {w w' : World} {s s₀ s' : Server} {c : Conn} {pc pc' : Pc}
  {a : Action} {xs : List Action} {k : AcceptAnswers} {ks : Answers} {evs : List Item}
  {r : World × Bool}

/-- The descriptors that are registered for clients. -/
def World.clients (w : World) : Set ℕ := {fd | ∃ p, w.fds.registration fd = some (some p)}

/-- From `poll_delete` on there are the routine and the `conn_t` left. -/
def Pc.closing : Pc → ℕ
  | .exiting | .ended => 2
  | _ => 0

def World.closing (w : World) (co : ℕ) : ℕ :=
  match w.heap.block co with
  | some (.routine _ pc) => pc.closing
  | _ => 0

/-- The blocks of a connection that the loop is about to free. -/
def Server.closing (s : Server) : ℕ :=
  match s.loop with
  | .inside _ co _ => s.world.closing co
  | .resumed conn _ =>
    match s.world.heap.block conn with
    | some (.conn (some c)) => s.world.closing c.routine
    | _ => 0
  | _ => 0

/-- The blocks that a step leaks. -/
def Action.leaked : Action → ℕ
  | .accept k => leak k
  | _ => 0

/-- The descriptors that a step opens and neither registers nor closes. -/
def Action.lost : Action → ℕ
  | .accept k => if k.accepted.isSome && !registers k then 1 else 0
  | _ => 0

/-- Three blocks and a descriptor for each client, and what has been lost; `base` are the
descriptors that the server has been started with. -/
structure Balanced (base : ℕ) (s : Server) (m l : ℕ) : Prop where
  finite : s.world.clients.Finite
  memory : s.world.heap.live.card = 3 * s.world.clients.ncard + s.closing + m
  files : s.world.fds.opened = base + s.world.clients.ncard + l + s.world.fds.closed.length

theorem closing_eq (h : w.heap.block co = some (.routine conn pc)) : w.closing co = pc.closing := by
  unfold World.closing
  rw [h]

theorem closing_resumed (h : Current w conn c.routine c pc) :
    Server.closing ⟨w, .resumed conn evs⟩ = pc.closing := by
  unfold Server.closing
  dsimp only
  rw [h.block]
  exact closing_eq h.routine

/-- Whether or not the routine keeps the control. -/
theorem closing_current (h : Current w conn co c pc) (b : Bool) (evs : List Item) :
    Server.closing ⟨w, if b then .inside conn co evs else .resumed conn evs⟩ = pc.closing := by
  cases b with
  | true => exact closing_eq h.routine
  | false =>
    obtain rfl := h.routine_eq
    exact closing_resumed h

/-- Only `poll_delete` begins to close a connection. -/
theorem closing_step (h : RoutineStep ks pc pc') (hne : pc ≠ .deleting) :
    pc'.closing = pc.closing := by
  cases h with
  | delete => exact (hne rfl).elim
  | _ => rfl

theorem clients_congr (h : ∀ fd, w'.fds.registration fd = w.fds.registration fd) :
    w'.clients = w.clients := by
  ext fd
  exact exists_congr fun p => by rw [h]

/-- A turn of `handle_accept` registers one more client, or none. -/
theorem clients_turn (hk : FreshFd w k) (h : AcceptEffect w k r) :
    (registers k = false ∧ r.1.clients = w.clients) ∨
      (registers k = true ∧ ∃ fd, fd ∉ w.clients ∧ r.1.clients = insert fd w.clients) := by
  cases h with
  | noClient hclient => exact .inl ⟨by simp [registers, AcceptAnswers.accepted, hclient], rfl⟩
  | noConn hclient hconn => exact .inl ⟨by simp [registers, AcceptAnswers.accepted, hconn], rfl⟩
  | failed hclient hconn e he => exact .inl ⟨by simp [registers, AcceptAnswers.accepted, he], rfl⟩
  | again hclient hconn he => exact .inl ⟨by simp [registers, AcceptAnswers.accepted, he], rfl⟩
  | noRoutine hclient hconn cFd flags he hcreate =>
    exact .inl ⟨by simp [registers, hcreate], clients_congr fun _ => acceptFd_registration⟩
  | accepted hclient hconn cFd flags he hcreate =>
    have haccepted := accepted_eq hclient hconn he
    cases hadd : k.pollAdd with
    | false => exact .inl ⟨by simp [registers, hadd], clients_congr fun _ => acceptFd_registration⟩
    | true =>
      have hself := (served_accept hk he).registered
      refine .inr ⟨by simp [registers, haccepted, hcreate, hadd], cFd, ?_, ?_⟩
      · rintro ⟨p, hp⟩
        rw [w.fds.registered_open cFd (hk cFd flags he)] at hp
        cases hp
      · ext fd
        rw [Set.mem_insert_iff]
        by_cases hfd : fd = cFd
        · subst hfd
          exact iff_of_true ⟨_, hself⟩ (.inl rfl)
        · rw [or_iff_right hfd]
          refine exists_congr fun p => ?_
          rw [pollAdd_of_ne hfd]
          exact iff_of_eq (congrArg (· = _) acceptFd_registration)

theorem files_turn (h : AcceptEffect w k r) :
    r.1.fds.opened = w.fds.opened + (if k.accepted.isSome then 1 else 0) ∧
      r.1.fds.closed = w.fds.closed := by
  have hscreen (cFd : ℕ) (flags : BitVec 32) :
      ((w.acceptFd cFd flags).screen cFd k).fds.opened = w.fds.opened + 1 ∧
        ((w.acceptFd cFd flags).screen cFd k).fds.closed = w.fds.closed := by
    unfold World.screen setNonBlocking
    cases k.setfl <;> exact ⟨rfl, rfl⟩
  cases h with
  | noClient hclient => simp [AcceptAnswers.accepted, hclient]
  | noConn hclient hconn => simp [AcceptAnswers.accepted, hconn, World.malloc]
  | failed hclient hconn e he => simp [AcceptAnswers.accepted, he]
  | again hclient hconn he => simp [AcceptAnswers.accepted, he, World.mallocs, World.malloc]
  | noRoutine hclient hconn cFd flags he =>
    simpa [accepted_eq hclient hconn he] using hscreen cFd flags
  | accepted hclient hconn cFd flags he =>
    rw [accepted_eq hclient hconn he]
    cases k.pollAdd with
    | false => exact hscreen cFd flags
    | true => exact hscreen cFd flags

theorem count_turn (hk : FreshFd w k) (h : AcceptEffect w k r) (hfinite : w.clients.Finite) :
    r.1.clients.Finite ∧ r.1.clients.ncard = w.clients.ncard + if registers k then 1 else 0 := by
  rcases clients_turn hk h with ⟨hno, hclients⟩ | ⟨hyes, fd, hfd, hclients⟩
  · rw [hclients, if_neg (by simp [hno])]
    exact ⟨hfinite, rfl⟩
  · rw [hclients, if_pos hyes, Set.ncard_insert_of_notMem hfd hfinite]
    exact ⟨hfinite.insert fd, rfl⟩

/-- What `accept` has returned is registered or lost. -/
theorem accepted_or_lost :
    (if k.accepted.isSome then 1 else 0) =
      (if registers k then 1 else 0) + (Action.accept k).lost := by
  cases ha : k.accepted.isSome with
  | false => simp [Action.lost, registers, ha]
  | true => cases hr : registers k <;> simp [Action.lost, ha, hr]

theorem balanced_accept (hk : FreshFd w k) (heff : AcceptEffect w k r)
    (h : Balanced base ⟨w, .accepting evs⟩ m l) :
    Balanced base ⟨r.1, if r.2 then .accepting evs else .batch evs⟩ (m + (Action.accept k).leaked)
      (l + (Action.accept k).lost) := by
  obtain ⟨hfinite, hmemory, hfiles⟩ := h
  obtain ⟨hfinite', hcount⟩ := count_turn hk heff hfinite
  obtain ⟨hopened, hclosed⟩ := files_turn heff
  have hlive := balance_accept heff
  have hlost := accepted_or_lost (k := k)
  have hbefore : Server.closing ⟨w, .accepting evs⟩ = 0 := rfl
  have hafter : Server.closing ⟨r.1, if r.2 then .accepting evs else .batch evs⟩ = 0 := by
    cases r.2 <;> rfl
  refine ⟨hfinite', ?_, ?_⟩
  · rw [hafter]
    dsimp only [Action.leaked] at hmemory ⊢
    rw [hlive, hcount]
    split <;> omega
  · dsimp only at hfiles ⊢
    rw [hopened, hclosed, hcount]
    omega

theorem clients_release_eq : (w.release c).clients = w.clients \ {c.fd} := by
  ext fd
  rw [Set.mem_sdiff, Set.mem_singleton_iff]
  constructor
  · rintro ⟨p, hp⟩
    obtain ⟨hne, hreg⟩ := registered_release hp
    exact ⟨⟨p, hreg⟩, hne⟩
  · rintro ⟨⟨p, hp⟩, hne⟩
    exact ⟨p, (release_registration hne).trans hp⟩

theorem closed_release {f : File} (hf : w.fds.file c.fd = some f) :
    (w.release c).fds.closed.length = w.fds.closed.length + 1 := by
  simp [World.release, Descriptors.close, Descriptors.deregister, hf]

/-- `poll_delete` gives back the descriptor and the `sockaddr`. -/
theorem balanced_delete (hcur : Current w conn co c .deleting)
    (hs : Served w c.fd conn c .deleting) (h : Balanced base ⟨w, .inside conn co evs⟩ m l) :
    Balanced base ⟨(w.release c).store co (.routine conn .exiting), .inside conn co evs⟩ m l := by
  obtain ⟨hfinite, hmemory, hfiles⟩ := h
  obtain ⟨f, hf⟩ := Descriptors.open_of_registered hs.registered
  have hcard : (w.clients \ {c.fd}).ncard + 1 = w.clients.ncard :=
    Set.ncard_sdiff_singleton_add_one ⟨conn, hs.registered⟩ hfinite
  have hfree : (w.release c).heap.live.card + 1 = w.heap.live.card := Heap.card_free hs.sa
  have hclients : ((w.release c).store co (.routine conn .exiting)).clients =
      w.clients \ {c.fd} := clients_release_eq
  have hlive : ((w.release c).store co (.routine conn .exiting)).heap.live =
      (w.release c).heap.live := Heap.live_store
  have hbefore : Server.closing ⟨w, .inside conn co evs⟩ = 0 := closing_eq hcur.routine
  have hafter : Server.closing ⟨(w.release c).store co (.routine conn .exiting),
      .inside conn co evs⟩ = 2 := closing_eq ((hcur.release hs.sa).store .exiting).routine
  have hclosed := closed_release hf
  refine ⟨?_, ?_, ?_⟩
  · rw [hclients]
    exact hfinite.sdiff
  · rw [hafter, hclients, hlive]
    dsimp only at hmemory
    omega
  · rw [hclients]
    change w.fds.opened = _ + (w.release c).fds.closed.length
    dsimp only at hfiles
    omega

theorem balanced_call (hs : Sound sFd ⟨w, .inside conn co evs⟩)
    (hdelete : ∀ c u, w.conn conn = .ok c → w.fds.registration c.fd = some u → ks.delete = none)
    (hok : (w.call co ks).map (fun r => Server.mk r.1
      (if r.2 then .inside conn co evs else .resumed conn evs)) = .ok s')
    (h : Balanced base ⟨w, .inside conn co evs⟩ m l) : Balanced base s' m l := by
  obtain ⟨-, -, c, pc, hcur, hrun, hstage⟩ := hs
  by_cases hdel : pc = .deleting
  · subst hdel
    obtain ⟨-, hserved, -⟩ := hstage.resolve_right (by simp)
    rw [call_delete hcur hserved (hdelete c _ (conn_ok hcur.block) hserved.registered)] at hok
    cases hok
    exact balanced_delete hcur hserved h
  · rw [call_ok hcur hdel] at hok
    cases hok
    obtain ⟨hfinite, hmemory, hfiles⟩ := h
    have hafter := closing_current (hcur.store (clientRoutine pc ks))
      (decide (clientRoutine pc ks).Running) evs
    rw [closing_step (clientRoutine_step hrun) hdel, ← closing_eq hcur.routine] at hafter
    refine ⟨hfinite, ?_, hfiles⟩
    rw [hafter]
    exact (congrArg Finset.card Heap.live_store).trans hmemory

theorem balanced_reap (hs : Sound sFd ⟨w, .resumed conn evs⟩)
    (hok : (reap w conn).map (fun w => Server.mk w (.batch evs)) = .ok s')
    (h : Balanced base ⟨w, .resumed conn evs⟩ m l) : Balanced base s' m l := by
  obtain ⟨-, -, c, pc, hcur, hpc⟩ := hs
  obtain ⟨hfinite, hmemory, hfiles⟩ := h
  rw [closing_resumed hcur] at hmemory
  rcases hpc with rfl | ⟨rfl, -⟩
  · rw [reap_waiting hcur (by simp)] at hok
    cases hok
    exact ⟨hfinite, hmemory, hfiles⟩
  · rw [reap_ended hcur] at hok
    cases hok
    refine ⟨hfinite, ?_, hfiles⟩
    have hroutine : (w.heap.free c.routine).live.card + 1 = w.heap.live.card :=
      Heap.card_free hcur.routine
    have hconn : (w.heap.free c.routine).block conn = some (.conn (some c)) :=
      (Heap.block_free_of_ne hcur.conn_ne).trans hcur.block
    have hboth := Heap.card_free hconn
    change ((w.heap.free c.routine).free conn).live.card = 3 * w.clients.ncard + 0 + m
    dsimp only [Pc.closing] at hmemory
    omega

theorem balanced_step {r : Except Fault Server} (hs : Sound sFd s) (hstep : Server.Step sFd s a r)
    (hok : r = .ok s') (h : Balanced base s m l) :
    Balanced base s' (m + a.leaked) (l + a.lost) := by
  cases hstep with
  | failed | wait | done | acceptable =>
    cases hok
    exact ⟨h.finite, h.memory, h.files⟩
  | @dispatch w x evs hne =>
    obtain ⟨hclients, hpending⟩ := hs
    obtain ⟨n, u⟩ := x
    have hreg : w.fds.registration n = some u := hpending.registered _ List.mem_cons_self
    cases u with
    | none => exact absurd (hclients.listener n hreg) hne
    | some p =>
      obtain ⟨c, pc, hserved, hwaiting⟩ := hclients.served n p hreg
      rw [dispatch_ok hserved (hwaiting (by simp))] at hok
      cases hok
      have hafter : Server.closing ⟨w.store c.routine (.routine p .reading),
          .inside p c.routine evs⟩ = 0 := closing_eq (hserved.current.store .reading).routine
      refine ⟨h.finite, ?_, h.files⟩
      rw [hafter]
      exact (congrArg Finset.card Heap.live_store).trans h.memory
  | accept k hk =>
    obtain ⟨r, hr, heff⟩ := handleAccept_effect (k := k)
    rw [hr] at hok
    cases hok
    exact balanced_accept hk heff h
  | call ks hdelete => exact balanced_call hs hdelete hok h
  | reap => exact balanced_reap hs hok h

theorem balanced_run (hr : (server sFd).Run s xs s') (hs : Sound sFd s) (h : Balanced base s m l) :
    Balanced base s' (m + (xs.map Action.leaked).sum) (l + (xs.map Action.lost).sum) := by
  induction hr generalizing m l with
  | refl => exact h
  | stepL hstep _ ih =>
    obtain ⟨t, ht, hsound⟩ := sound_step hstep hs
    cases ht
    rw [List.map_cons, List.sum_cons, List.map_cons, List.sum_cons, ← add_assoc, ← add_assoc]
    exact ih hsound (balanced_step hs hstep rfl h)

theorem balanced_initial (h : Server.Initial sFd s) : Balanced s.world.fds.opened s 0 0 := by
  obtain ⟨w, loop⟩ := s
  obtain ⟨rfl, hheap, -, hreg, hclosed⟩ := h
  have hnone : w.clients = ∅ := by
    ext fd
    refine iff_of_false ?_ (Set.notMem_empty fd)
    rintro ⟨p, hp⟩
    rw [hreg] at hp
    dsimp only at hp
    split at hp <;> simp at hp
  refine ⟨?_, ?_, ?_⟩
  · rw [hnone]
    exact Set.finite_empty
  · rw [hnone, hheap, Heap.live_empty, Set.ncard_empty]
    rfl
  · rw [hnone, hclosed, Set.ncard_empty]
    rfl

/-- The server has three blocks and a descriptor for each client, up to a connection that the loop
is about to free, and beyond that what the turns of `handle_accept` have lost; nothing else
leaks. -/
theorem lost_in_accept (hinit : Server.Initial sFd s₀) (hr : (server sFd).Run s₀ xs s) :
    s.world.clients.Finite ∧
    s.world.heap.live.card =
      3 * s.world.clients.ncard + s.closing + (xs.map Action.leaked).sum ∧
    s.world.fds.opened = s₀.world.fds.opened + s.world.clients.ncard +
      (xs.map Action.lost).sum + s.world.fds.closed.length := by
  have hbalanced := balanced_run hr (sound_initial hinit) (balanced_initial hinit)
  rw [Nat.zero_add, Nat.zero_add] at hbalanced
  exact ⟨hbalanced.finite, hbalanced.memory, hbalanced.files⟩

/-- One client has come. -/
theorem lost_in_accept_client : ∃ (s : Server) (xs : List Action),
    (server 3).Run (.start 3) xs s ∧ s.loop = .wait ∧ s.world.heap.live.card = 5 ∧
    s.world.heap.live.card = 3 * s.world.clients.ncard + 2 := by
  have hr : ∃ s : Server, (server 3).Run (.start 3) [.kevent (.ok [⟨3, none⟩]), .main,
      .accept (.plain (.ok (5, 2))), .accept (.plain (.error EAGAIN)), .main] s ∧
      s.loop = .wait ∧ s.world.heap.live.card = 5 ∧ s.closing = 0 := by
    refine ⟨_,
      .stepL (.wait [⟨3, none⟩] (by decide) (List.forall_mem_singleton.mpr rfl) (by decide)) <|
      .stepL (.acceptable rfl) <|
      .stepL (.accept (.plain (.ok (5, 2))) ?_) <|
      .stepL (.accept (.plain (.error EAGAIN)) ?_) <|
      .stepL .done .refl, rfl, rfl, rfl⟩
    · rintro _ _ ⟨⟩
      rfl
    · rintro _ _ ⟨⟩
  obtain ⟨s, hrun, hloop, hlive, hclosing⟩ := hr
  obtain ⟨-, hmemory, -⟩ := lost_in_accept (start_initial 3) hrun
  refine ⟨s, _, hrun, hloop, hlive, ?_⟩
  rw [hmemory, hclosing]
  rfl

end UnixCodes.AcoHttpd
