import UnixCodes.KqueueServer.NoBlockServer
import UnixCodes.Lib.Slots

/-! Who owns the `client_addr` blocks of `no_block_server.c`. -/
namespace UnixCodes.KqueueServer

open Posix Transition

variable {listenFd fd p q : ℕ} {w w' w₁ : World} {s s' : Server} {x kt : Item} {a : Accepted}
  {as : List Accepted} {act : Action} {evs : List Item} {u : Option ℕ} {ks : List Answers}
  {buf : List UInt8} {r : Except Fault World}

/-- Each registered client has an allocated block to itself, every allocated block belongs to one,
and every block that is not allocated any more has been freed once. -/
structure Owned (listenFd : ℕ) (w : World) : Prop where
  clients : ∀ fd u, fd ≠ listenFd → w.fds.registration fd = some u →
    ∃ p, u = some p ∧ (w.heap.block p).isSome
  apart : ∀ fd fd' p, w.fds.registration fd = some (some p) →
    w.fds.registration fd' = some (some p) → fd = fd'
  owner : ∀ p, (w.heap.block p).isSome →
    ∃ fd, fd ≠ listenFd ∧ w.fds.registration fd = some (some p)
  once : ∀ p < w.heap.next, w.heap.freed.count p = if (w.heap.block p).isSome then 0 else 1

/-- A listen event accepts one client. -/
def Action.OneClient : Action → Prop
  | .accept true as => as.length = 1
  | _ => True

/-- Between two events: the listening socket stays registered, and names do not get lost. -/
structure Idle (listenFd : ℕ) (w : World) : Prop where
  owned : Owned listenFd w
  listener : w.fds.registration listenFd = some none
  accounted : w.heap.Accounted

/-- The rest of the batch is still registered as it was reported. -/
structure Pending (w : World) (evs : List Item) : Prop where
  nodup : (evs.map Item.ident).Nodup
  registered : ∀ x ∈ evs, w.fds.registration x.ident = some x.udata

def Sound (listenFd : ℕ) (s : Server) : Prop :=
  match s.loop with
  | .batch evs => Idle listenFd s.world ∧ Pending s.world evs
  | _ => Idle listenFd s.world

theorem free_ok (h : (w.heap.block p).isSome) :
    w.free p = .ok { w with heap := w.heap.free p } := if_pos h

/-- What a turn does while the block is allocated. -/
theorem acceptTurn_added (h : (w.heap.block p).isSome) (ha : a.added = true) :
    acceptTurn w p a =
      .ok { w with fds := (w.fds.openFile a.fd 0).register a.fd (some p) } := by
  unfold acceptTurn
  rw [if_pos h, if_pos ha]

theorem acceptTurn_failed (h : (w.heap.block p).isSome) (ha : a.added = false) :
    acceptTurn w p a =
      .ok { heap := w.heap.free p, fds := (w.fds.openFile a.fd 0).close a.fd } := by
  unfold acceptTurn
  rw [if_pos h, if_neg (by simp [ha])]
  exact free_ok h

theorem acceptTurn_dangling (h : w.heap.block p = none) :
    acceptTurn w p a = .error .dangling := by
  unfold acceptTurn
  rw [if_neg (by simp [h])]

/-- A turn registers the client, or frees the block and leaves the registrations as they were. -/
theorem acceptTurn_cases (hfresh : w.fds.file a.fd = none) (h : acceptTurn w p a = .ok w₁) :
    (w.heap.block p).isSome ∧
    (w₁.heap = w.heap ∧ w₁.fds.registration a.fd = some (some p) ∧
      (∀ n, n ≠ a.fd → w₁.fds.registration n = w.fds.registration n) ∨
    w₁.heap = w.heap.free p ∧ ∀ n, w₁.fds.registration n = w.fds.registration n) := by
  have hsome : (w.heap.block p).isSome := by
    by_contra hnone
    rw [acceptTurn_dangling (Option.not_isSome_iff_eq_none.mp hnone)] at h
    cases h
  refine ⟨hsome, ?_⟩
  cases ha : a.added with
  | true =>
    rw [acceptTurn_added hsome ha] at h
    cases h
    left
    refine ⟨rfl, ?_, fun n hn => Descriptors.registration_register_of_ne hn⟩
    exact Descriptors.registration_register_self (Descriptors.file_openFile_self hfresh)
  | false =>
    rw [acceptTurn_failed hsome ha] at h
    cases h
    right
    refine ⟨rfl, fun n => ?_⟩
    by_cases hn : n = a.fd
    · rw [hn, w.fds.registered_open a.fd hfresh]
      exact Descriptors.registration_close_self
    · exact Descriptors.registration_close_of_ne hn

/-- Open descriptors stay registered as they are while clients are accepted. -/
theorem acceptLoop_registration (h : AcceptLoop w p as (.ok w'))
    (hreg : w.fds.registration fd = some u) : w'.fds.registration fd = some u := by
  generalize hr : Except.ok w' = r at h
  induction h with
  | done =>
    cases hr
    exact hreg
  | fault => cases hr
  | @turn w w₁ _ a _ _ _ hfresh ht _ ih =>
    apply ih _ hr
    have hne : fd ≠ a.fd := by
      rintro rfl
      rw [w.fds.registered_open a.fd hfresh] at hreg
      cases hreg
    rcases (acceptTurn_cases hfresh ht).2 with ⟨-, -, hother⟩ | ⟨-, hother⟩
    · rw [hother fd hne, hreg]
    · rw [hother fd, hreg]

/-- With the block gone the next client is stored in freed memory. -/
theorem acceptLoop_dangling (h : AcceptLoop w p as (.ok w')) (hp : w.heap.block p = none) :
    w' = w := by
  cases h with
  | done => rfl
  | turn hfd hfresh ht hrest =>
    rw [acceptTurn_dangling hp] at ht
    cases ht

/-- The block that hangs on a descriptor. -/
def World.blockOf (w : World) (fd : ℕ) : Option ℕ := (w.fds.registration fd).join

theorem blockOf_eq_some : w.blockOf fd = some p ↔ w.fds.registration fd = some (some p) :=
  Option.join_eq_some_iff

theorem Idle.ne_listener (h : Idle listenFd w) (hfd : w.fds.registration fd = some (some p)) :
    fd ≠ listenFd := by
  rintro rfl
  rw [h.listener] at hfd
  cases hfd

/-- The registrations are a table that keeps each allocated block in one slot. -/
theorem Idle.places (h : Idle listenFd w) : Places w.blockOf w.heap.live := by
  constructor
  · intro p
    rw [Heap.mem_live]
    constructor
    · intro hp
      obtain ⟨fd, -, hfd⟩ := h.owned.owner p hp
      exact ⟨fd, blockOf_eq_some.mpr hfd⟩
    · rintro ⟨fd, hfd⟩
      rw [blockOf_eq_some] at hfd
      obtain ⟨q, hq, hsome⟩ := h.owned.clients fd _ (h.ne_listener hfd) hfd
      cases hq
      exact hsome
  · intro fd fd' p hfd hfd'
    exact h.owned.apart fd fd' p (blockOf_eq_some.mp hfd) (blockOf_eq_some.mp hfd')

/-- Such a table, in which no client is registered with `NULL`, gives the ownership back. -/
theorem idle_of_places (hp : Places w.blockOf w.heap.live)
    (hnull : ∀ fd, fd ≠ listenFd → w.fds.registration fd ≠ some none)
    (hl : w.fds.registration listenFd = some none) (ha : w.heap.Accounted) : Idle listenFd w := by
  refine ⟨⟨?_, ?_, ?_, fun p hp => ha.count_freed hp⟩, hl, ha⟩
  · intro fd u hne hu
    cases u with
    | none => exact absurd hu (hnull fd hne)
    | some p =>
      refine ⟨p, rfl, ?_⟩
      rw [← Heap.mem_live, hp.holds]
      exact ⟨fd, blockOf_eq_some.mpr hu⟩
  · intro fd fd' p hfd hfd'
    exact hp.once fd fd' p (blockOf_eq_some.mpr hfd) (blockOf_eq_some.mpr hfd')
  · intro p hsome
    rw [← Heap.mem_live, hp.holds] at hsome
    obtain ⟨fd, hfd⟩ := hsome
    rw [blockOf_eq_some] at hfd
    refine ⟨fd, ?_, hfd⟩
    rintro rfl
    rw [hl] at hfd
    cases hfd

/-- The next block that `malloc` returns belongs to nobody. -/
theorem Owned.unowned (h : Owned listenFd w) (hne : fd ≠ listenFd) :
    w.fds.registration fd ≠ some (some w.heap.next) := by
  intro hfd
  obtain ⟨p, hp, hsome⟩ := h.clients fd _ hne hfd
  cases hp
  rw [Heap.block_next] at hsome
  cases hsome

theorem Idle.null_listener (h : Idle listenFd w) (hne : fd ≠ listenFd) :
    w.fds.registration fd ≠ some none := by
  intro hfd
  obtain ⟨p, hp, -⟩ := h.owned.clients fd _ hne hfd
  cases hp

theorem Idle.fresh_ne_listener (h : Idle listenFd w) (hfresh : w.fds.file fd = none) :
    fd ≠ listenFd := by
  rintro rfl
  have hnone := w.fds.registered_open fd hfresh
  rw [h.listener] at hnone
  cases hnone

/-- A listen event with one client. -/
theorem idle_accept_one (h : Idle listenFd w) (hl : AcceptLoop w.malloc w.heap.next [a] r) :
    ∃ w', r = .ok w' ∧ Idle listenFd w' := by
  have hsome : (w.malloc.heap.block w.heap.next).isSome := by simp [World.malloc]
  cases hl with
  | fault hfd hfresh ht =>
    cases ha : a.added with
    | true => cases (acceptTurn_added hsome ha).symm.trans ht
    | false => cases (acceptTurn_failed hsome ha).symm.trans ht
  | @turn _ w₁ _ _ _ _ hfd hfresh ht hrest =>
    cases hrest
    refine ⟨w₁, rfl, ?_⟩
    have hacc : w.malloc.heap.Accounted := h.accounted.alloc
    have hne := h.fresh_ne_listener hfresh
    rcases (acceptTurn_cases hfresh ht).2 with ⟨hheap, hreg, hother⟩ | ⟨hheap, hother⟩
    · have hblock : w₁.blockOf = Function.update w.blockOf a.fd (some w.heap.next) := by
        funext n
        by_cases he : n = a.fd
        · rw [he, Function.update_self, blockOf_eq_some, hreg]
        · rw [Function.update_of_ne he, World.blockOf, hother n he]
          rfl
      apply idle_of_places
      · rw [hblock, hheap, World.malloc, Heap.live_alloc]
        apply h.places.occupy ?_ Heap.next_notMem_live
        rw [World.blockOf, w.fds.registered_open a.fd hfresh]
        rfl
      · intro n hn
        by_cases he : n = a.fd
        · rw [he, hreg]
          simp
        · rw [hother n he]
          exact h.null_listener hn
      · rw [hother listenFd hne.symm]
        exact h.listener
      · exact hheap ▸ hacc
    · have hblock : w₁.blockOf = w.blockOf := by
        funext n
        rw [World.blockOf, hother n]
        rfl
      have hlive : w₁.heap.live = w.heap.live := by
        rw [hheap, Heap.live_free, World.malloc, Heap.live_alloc,
          Finset.erase_insert Heap.next_notMem_live]
      apply idle_of_places
      · rw [hblock, hlive]
        exact h.places
      · intro n hn
        rw [hother n]
        exact h.null_listener hn
      · rw [hother listenFd]
        exact h.listener
      · exact hheap ▸ hacc.free

/-- Without a client the block has no owner. -/
theorem not_owned_accept_none (h : Idle listenFd w) : ¬ Owned listenFd w.malloc := by
  intro ho
  obtain ⟨fd, hne, hfd⟩ := ho.owner w.heap.next (by simp [World.malloc])
  exact h.owned.unowned hne hfd

/-- With two clients the block is shared, or freed under the first one, or written after it has
been freed. -/
theorem not_owned_accept_two {b : Accepted} (h : Idle listenFd w)
    (hl : AcceptLoop w.malloc w.heap.next (a :: b :: as) (.ok w')) : ¬ Owned listenFd w' := by
  intro ho
  cases hl with
  | @turn _ w₁ _ _ _ _ _ hfresh₁ ht₁ hrest =>
    cases hrest with
    | @turn _ w₂ _ _ _ _ _ hfresh₂ ht₂ hrest =>
      obtain ⟨hlive₂, hcases₂⟩ := acceptTurn_cases hfresh₂ ht₂
      rcases (acceptTurn_cases hfresh₁ ht₁).2 with ⟨-, hreg₁, -⟩ | ⟨hheap₁, -⟩
      · have hne : a.fd ≠ b.fd := by
          intro he
          rw [he, w₁.fds.registered_open b.fd hfresh₂] at hreg₁
          cases hreg₁
        rcases hcases₂ with ⟨-, hreg₂, hother⟩ | ⟨hheap₂, hother⟩
        · have h₁ := acceptLoop_registration hrest ((hother a.fd hne).trans hreg₁)
          have h₂ := acceptLoop_registration hrest hreg₂
          exact hne (ho.apart a.fd b.fd _ h₁ h₂)
        · have hgone : w₂.heap.block w.heap.next = none := by rw [hheap₂, Heap.block_free_self]
          obtain rfl := acceptLoop_dangling hrest hgone
          have hkept := (hother a.fd).trans hreg₁
          obtain ⟨p, hp, hsome⟩ := ho.clients a.fd _ (h.fresh_ne_listener hfresh₁) hkept
          cases hp
          rw [hgone] at hsome
          cases hsome
      · rw [hheap₁, Heap.block_free_self] at hlive₂
        cases hlive₂

/-- The registrations of a batch still lead to their blocks. -/
theorem Pending.udata (hp : Pending w (x :: evs)) (h : Idle listenFd w) (hne : x.ident ≠ listenFd) :
    ∃ p, x.udata = some p ∧ w.fds.registration x.ident = some (some p) ∧
      (w.heap.block p).isSome := by
  have hreg := hp.registered x List.mem_cons_self
  obtain ⟨p, hu, hsome⟩ := h.owned.clients x.ident x.udata hne hreg
  exact ⟨p, hu, hu ▸ hreg, hsome⟩

theorem Pending.tail (h : Pending w (x :: evs)) : Pending w evs :=
  ⟨(List.nodup_cons.mp h.nodup).2, fun y hy => h.registered y (List.mem_cons_of_mem _ hy)⟩

theorem deleteKevent_ok (hu : x.udata = some p) (hp : (w.heap.block p).isSome) :
    deleteKevent w x =
      .ok ({ heap := w.heap.free p, fds := (w.fds.deregister x.ident).close x.ident },
        { x with udata := none }) := by
  unfold deleteKevent
  rw [hu]
  have hfree := free_ok (w := { w with fds := (w.fds.deregister x.ident).close x.ident }) hp
  dsimp only
  rw [hfree]
  rfl

theorem registration_removed (hne : fd ≠ q) :
    ((w.fds.deregister q).close q).registration fd = w.fds.registration fd :=
  (Descriptors.registration_close_of_ne hne).trans (Descriptors.registration_deregister_of_ne hne)

/-- A client leaves with its block. -/
theorem idle_delete (h : Idle listenFd w) (hreg : w.fds.registration q = some (some p)) :
    Idle listenFd { heap := w.heap.free p, fds := (w.fds.deregister q).close q } := by
  have hgone : ((w.fds.deregister q).close q).registration q = none :=
    Descriptors.registration_close_self
  have hblock : World.blockOf { heap := w.heap.free p, fds := (w.fds.deregister q).close q } =
      Function.update w.blockOf q none := by
    funext n
    unfold World.blockOf
    by_cases he : n = q
    · rw [he, Function.update_self, hgone]
      rfl
    · rw [Function.update_of_ne he, registration_removed he]
  apply idle_of_places
  · rw [hblock, Heap.live_free]
    exact h.places.release (blockOf_eq_some.mpr hreg)
  · intro n hn
    by_cases he : n = q
    · rw [he, hgone]
      simp
    · rw [registration_removed he]
      exact h.null_listener hn
  · rw [registration_removed (h.ne_listener hreg).symm]
    exact h.listener
  · exact h.accounted.free

/-- The second `delete_kevent` of an event finds `udata` cleared. -/
theorem clientEvent_ok (hu : x.udata = some p) (hp : (w.heap.block p).isSome) :
    clientEvent w x .eof =
      .ok { heap := w.heap.free p, fds := (w.fds.deregister x.ident).close x.ident } := by
  unfold clientEvent
  rw [if_pos rfl, deleteKevent_ok hu hp]
  cases x.eof <;> simp [deleteKevent, bind, Except.bind]

theorem sound_client (h : Idle listenFd w) (hp : Pending w (x :: evs)) (hne : x.ident ≠ listenFd)
    (hleft : (noBlockDrain buf ks).2 ≠ .running) :
    ∃ s, (clientEvent w x (noBlockDrain buf ks).2).map (fun w => Server.mk w (.batch evs)) = .ok s ∧
      Sound listenFd s := by
  obtain ⟨p, hu, hreg, hsome⟩ := hp.udata h hne
  rw [noBlockDrain_exit.resolve_left hleft, clientEvent_ok hu hsome]
  refine ⟨_, rfl, idle_delete h hreg, hp.tail.nodup, fun y hy => ?_⟩
  refine (registration_removed ?_).trans (hp.tail.registered y hy)
  intro he
  exact (List.nodup_cons.mp hp.nodup).1 (he ▸ List.mem_map_of_mem hy)

theorem Sound.idle (h : Sound listenFd s) : Idle listenFd s.world := by
  obtain ⟨w, loop⟩ := s
  cases loop with
  | wait => exact h
  | batch evs => exact h.1
  | exited => exact h

/-- From a sound server every step with one client for a listen event leads to a sound server. -/
theorem sound_step {r : Except Fault Server} (h : Server.Step listenFd s act r)
    (hs : Sound listenFd s) (hone : act.OneClient) : ∃ t, r = .ok t ∧ Sound listenFd t := by
  cases h with
  | failed e =>
    refine ⟨_, rfl, ?_⟩
    by_cases he : e = EINTR
    · rw [if_pos he]
      exact hs
    · rw [if_neg he]
      exact hs
  | wait evs hlen hreg hnodup => exact ⟨_, rfl, hs, hnodup, hreg⟩
  | done => exact ⟨_, rfl, hs.1⟩
  | noMemory => exact ⟨_, rfl, hs.1, hs.2.tail⟩
  | accept hfd as hl =>
    obtain ⟨a, rfl⟩ := List.length_eq_one_iff.mp hone
    obtain ⟨w', rfl, hidle⟩ := idle_accept_one hs.1 hl
    refine ⟨_, rfl, hidle, hs.2.tail.nodup, fun y hy => ?_⟩
    exact acceptLoop_registration hl (hs.2.tail.registered y hy)
  | eexit => exact ⟨_, rfl, hs.1⟩
  | client hne hdata buf ks hleft => exact sound_client hs.1 hs.2 hne hleft

theorem sound_initial (h : Server.Initial listenFd s) : Sound listenFd s := by
  obtain ⟨w, loop⟩ := s
  obtain ⟨rfl, hheap, hreg⟩ := h
  dsimp only at hheap hreg
  have hblock : w.blockOf = fun _ => none := by
    funext fd
    rw [World.blockOf, hreg]
    by_cases he : fd = listenFd <;> simp [he]
  apply idle_of_places
  · rw [hblock, hheap]
    exact .empty
  · intro fd hne
    simp [hreg, hne]
  · simp [hreg]
  · rw [hheap]
    exact Heap.accounted_empty

theorem sound_reachable
    (h : ((server listenFd).restrict fun _ a => a.OneClient).Reachable s) : Sound listenFd s := by
  apply System.reachable_invariant (fun _ => sound_initial) ?_ h
  rintro s a t ⟨hone, hstep⟩ hs
  obtain ⟨t', ht, hsound⟩ := sound_step hstep hs hone
  cases ht
  exact hsound

/-- As long as every listen event has accepted one client the blocks are owned, and a step keeps
them so, without misusing a pointer, exactly if it goes on like that. -/
theorem owned_iff_oneClient
    (h : ((server listenFd).restrict fun _ a => a.OneClient).Reachable s) :
    Owned listenFd s.world ∧ ∀ a r, Server.Step listenFd s a r →
      ((∃ t, r = .ok t ∧ Owned listenFd t.world) ↔ a.OneClient) := by
  have hs := sound_reachable h
  refine ⟨hs.idle.owned, fun a r hstep => ⟨?_, ?_⟩⟩
  · rintro ⟨t, rfl, ho⟩
    cases a with
    | kevent | client | main => trivial
    | accept malloc as =>
      cases malloc with
      | false => trivial
      | true =>
        generalize hr : Except.ok t = r at hstep
        cases hstep with
        | @accept w x evs hfd _ r hl =>
          cases r with
          | error => cases hr
          | ok w' =>
            cases hr
            rcases as with _ | ⟨a, _ | ⟨b, as⟩⟩
            · cases hl
              exact absurd ho (not_owned_accept_none hs.1)
            · rfl
            · exact absurd ho (not_owned_accept_two hs.1 hl)
  · intro hone
    obtain ⟨t, ht, hsound⟩ := sound_step hstep hs hone
    exact ⟨t, ht, hsound.idle.owned⟩

/-- A read that finds the client gone. -/
def Answers.gone : Answers := ⟨.bytes [] (Nat.zero_le _), fun n => .count n le_rfl⟩

theorem step_accept (hs : x.ident = listenFd)
    (h : AcceptLoop w.malloc w.heap.next as (.ok w')) :
    Server.Step listenFd ⟨w, .batch (x :: evs)⟩ (.accept true as) (.ok ⟨w', .batch evs⟩) :=
  .accept hs as h

theorem step_gone (hs : x.ident ≠ listenFd) (hdata : 0 ≤ x.data)
    (h : clientEvent w x .eof = .ok w') :
    Server.Step listenFd ⟨w, .batch (x :: evs)⟩ (.client [] [.gone]) (.ok ⟨w', .batch evs⟩) := by
  have hstep : Server.Step listenFd ⟨w, .batch (x :: evs)⟩ (.client [] [.gone]) _ :=
    .client hs hdata [] [.gone] (show Exit.eof ≠ .running by decide)
  rwa [show (noBlockDrain [] [.gone]).2 = .eof from rfl, h] at hstep

/-- A client comes, sends nothing and leaves; its event is flagged with `EV_EOF`. -/
theorem owned_iff_oneClient_leaves :
    ∃ s : Server, ((server 3).restrict fun _ a => a.OneClient).Reachable s ∧
      s.world.heap.freed = [0] ∧ s.world.fds.registration 5 = none ∧
      Owned 3 s.world ∧ ∀ a r, Server.Step 3 s a r →
        ((∃ t, r = .ok t ∧ Owned 3 t.world) ↔ a.OneClient) := by
  have allowed {s t : Server} {a : Action} (h : Server.Step 3 s a (.ok t)) (ha : a.OneClient) :
      ((server 3).restrict fun _ a => a.OneClient).Step s a t := ⟨ha, h⟩
  have hr : ∃ s : Server, ((server 3).restrict fun _ a => a.OneClient).Reachable s ∧
      s.world.heap.freed = [0] ∧ s.world.fds.registration 5 = none := by
    have hloop : ∃ w, AcceptLoop (Server.start 3).world.malloc 0 [⟨5, true⟩] (.ok w) ∧
        w.fds.registration 5 = some (some 0) ∧ (w.heap.block 0).isSome ∧ w.heap.freed = [] :=
      ⟨_, .turn (by decide) rfl rfl .done, rfl, rfl, rfl⟩
    obtain ⟨w, hw, h5, hsome, hnone⟩ := hloop
    refine ⟨_, ⟨_, _, start_initial 3,
      .stepL (allowed (.wait [⟨3, none, 1, false⟩] (by decide)
        (List.forall_mem_singleton.mpr rfl) (by decide)) trivial) <|
      .stepL (allowed (step_accept rfl hw) rfl) <|
      .stepL (allowed .done trivial) <|
      .stepL (allowed (.wait [⟨5, some 0, 0, true⟩] (by decide)
        (List.forall_mem_singleton.mpr h5) (by decide)) trivial) <|
      .stepL (allowed (step_gone (by decide) (by decide) (clientEvent_ok rfl hsome)) trivial)
        .refl⟩, ?_, rfl⟩
    simp [Heap.free, hsome, hnone]
  obtain ⟨s, hs, hfreed, hreg⟩ := hr
  exact ⟨s, hs, hfreed, hreg, owned_iff_oneClient hs⟩

/-- Two clients wait when the listen event is handled, and share one block. -/
theorem twoClients_share : ¬ ∀ s : Server, (server 3).Reachable s → Owned 3 s.world := by
  intro hall
  have hr : ∃ s : Server, (server 3).Reachable s ∧
      s.world.fds.registration 5 = some (some 0) ∧ s.world.fds.registration 6 = some (some 0) := by
    have hloop : ∃ w, AcceptLoop (Server.start 3).world.malloc 0 [⟨5, true⟩, ⟨6, true⟩] (.ok w) ∧
        w.fds.registration 5 = some (some 0) ∧ w.fds.registration 6 = some (some 0) :=
      ⟨_, .turn (by decide) rfl rfl (.turn (by decide) rfl rfl .done), rfl, rfl⟩
    obtain ⟨w, hw, h5, h6⟩ := hloop
    exact ⟨_, ⟨_, _, start_initial 3,
      .stepL (.wait [⟨3, none, 2, false⟩] (by decide) (List.forall_mem_singleton.mpr rfl)
        (by decide)) <|
      .stepL (step_accept rfl hw) .refl⟩, h5, h6⟩
  obtain ⟨s, hs, h5, h6⟩ := hr
  exact absurd ((hall s hs).apart 5 6 0 h5 h6) (by decide)

end UnixCodes.KqueueServer
