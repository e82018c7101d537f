import UnixCodes.AcoHttpd.World

/-! The resources of a whole call of `handle_accept`. -/
namespace UnixCodes.AcoHttpd

open Posix

/-- The registration of `fd` leads to its connection, whose routine stands at `pc`. -/
structure Served (w : World) (fd p : ℕ) (c : Conn) (pc : Pc) : Prop where
  registered : w.fds.registration fd = some (some p)
  conn : w.heap.block p = some (.conn (some c))
  fd_eq : c.fd = fd
  routine : w.heap.block c.routine = some (.routine p pc)
  sa : w.heap.block c.sa = some .sockaddr

/-- `accept` returns a number that is not in use. -/
def FreshFd (w : World) (k : AcceptAnswers) : Prop :=
  ∀ cFd flags, k.accept = .ok (cFd, flags) → w.fds.file cFd = none

/-- A call of `handle_accept` with the answers to its turns, from entry to return. -/
inductive AcceptCall : World → List AcceptAnswers → World → Prop
  | last {w w' : World} {k : AcceptAnswers} (hk : FreshFd w k)
      (h : handleAccept w k = .ok (w', false)) : AcceptCall w [k] w'
  | turn {w w₁ w' : World} {k : AcceptAnswers} {ks : List AcceptAnswers} (hk : FreshFd w k)
      (h : handleAccept w k = .ok (w₁, true)) (hrest : AcceptCall w₁ ks w') :
      AcceptCall w (k :: ks) w'

/-- The descriptor that a turn has accepted. -/
def AcceptAnswers.accepted (k : AcceptAnswers) : Option ℕ :=
  if k.mallocClient && k.mallocConn then
    match k.accept with
    | .ok (cFd, _) => some cFd
    | .error _ => none
  else none

def accepted (ks : List AcceptAnswers) : List ℕ := ks.filterMap AcceptAnswers.accepted

/-- Every accepted connection is served or closed, nothing else is left allocated, and there are
three new blocks for each new registration. -/
structure AllOrNothing (w : World) (ks : List AcceptAnswers) (w' : World) : Prop where
  settled : ∀ fd ∈ accepted ks, (∃ p c, Served w' fd p c .created) ∨ w'.fds.file fd = none
  kept : ∀ b ∈ w.heap.live, b ∈ w'.heap.live
  owned : ∀ b ∈ w'.heap.live, b ∉ w.heap.live → ∃ fd ∈ accepted ks, ∃ p c,
    Served w' fd p c .created ∧ (b = p ∨ b = c.routine ∨ b = c.sa)
  balance : w'.heap.live.card = w.heap.live.card +
    3 * (accepted ks).countP fun fd => (w'.fds.registration fd).isSome

/-- The turns that the code gets right: `malloc` fails first, or `accept` fails with an error other
than `EAGAIN`, or the connection comes to be registered. -/
def Clean (k : AcceptAnswers) : Prop :=
  k.mallocClient = true → k.mallocConn = true ∧
    match k.accept with
    | .error e => e ≠ EAGAIN
    | .ok _ => k.acoCreate = true ∧ k.pollAdd = true

variable {w w' w₁ : World} {k : AcceptAnswers} {ks : List AcceptAnswers} {r : World × Bool}
  {fd p cFd : ℕ} {c : Conn} {pc : Pc} {flags : BitVec 32}

/-- What was there before is still there, and open descriptors are registered as they were. -/
structure Extends (w w' : World) : Prop where
  block : ∀ p b, w.heap.block p = some b → w'.heap.block p = some b
  file : ∀ fd f, w.fds.file fd = some f →
    w'.fds.file fd = some f ∧ w'.fds.registration fd = w.fds.registration fd

theorem Extends.trans (h : Extends w w₁) (h' : Extends w₁ w') : Extends w w' := by
  refine ⟨fun p b hp => h'.block p b (h.block p b hp), fun fd f hf => ?_⟩
  obtain ⟨hf₁, hr₁⟩ := h.file fd f hf
  obtain ⟨hf', hr'⟩ := h'.file fd f hf₁
  exact ⟨hf', hr'.trans hr₁⟩

theorem Extends.served (h : Extends w w') (hs : Served w fd p c pc) : Served w' fd p c pc := by
  obtain ⟨f, hf⟩ := Descriptors.open_of_registered hs.registered
  exact ⟨(h.file fd f hf).2.trans hs.registered, h.block _ _ hs.conn, hs.fd_eq,
    h.block _ _ hs.routine, h.block _ _ hs.sa⟩

theorem Extends.live (h : Extends w w') (hp : p ∈ w.heap.live) : p ∈ w'.heap.live := by
  rw [Heap.mem_live] at hp ⊢
  obtain ⟨b, hb⟩ := Option.isSome_iff_exists.mp hp
  simp [h.block p b hb]

theorem mallocs_of_some {b : Block} (h : w.heap.block p = some b) :
    w.mallocs.heap.block p = some b := Heap.block_alloc (Heap.block_alloc h)

/-- An open descriptor is not the one that `accept` returns. -/
theorem FreshFd.ne {f : File} (h : FreshFd w k) (he : k.accept = .ok (cFd, flags))
    (hf : w.fds.file fd = some f) : fd ≠ cFd := by
  rintro rfl
  rw [h fd flags he] at hf
  cases hf

/-- Up to `poll_add` a turn does not touch the other descriptors. -/
theorem screen_file {f : File} (h : FreshFd w k) (he : k.accept = .ok (cFd, flags))
    (hf : w.fds.file fd = some f) :
    ((w.acceptFd cFd flags).screen cFd k).fds.file fd = some f := by
  have hne := h.ne he hf
  have hopen : (w.fds.openFile cFd flags).file fd = some f := Descriptors.file_openFile_of_some hf
  unfold World.screen setNonBlocking
  cases k.setfl with
  | some e => exact hopen
  | none => exact (Descriptors.file_setFlags_of_ne hne).trans hopen

theorem extends_accept (hk : FreshFd w k) (h : AcceptEffect w k r) : Extends w r.1 := by
  cases h with
  | noClient => exact ⟨fun _ _ h => h, fun _ _ h => ⟨h, rfl⟩⟩
  | noConn => exact ⟨fun _ _ h => Heap.block_alloc h, fun _ _ h => ⟨h, rfl⟩⟩
  | failed =>
    refine ⟨fun p b h => ?_, fun _ _ h => ⟨h, rfl⟩⟩
    have hlt := Heap.lt_next h
    change ((w.mallocs.heap.free w.heap.next).free (w.heap.next + 1)).block p = some b
    rw [Heap.block_free_of_ne (by omega), Heap.block_free_of_ne (by omega)]
    exact mallocs_of_some h
  | again => exact ⟨fun _ _ h => mallocs_of_some h, fun _ _ h => ⟨h, rfl⟩⟩
  | noRoutine _ _ cFd flags he _ =>
    refine ⟨fun p b h => ?_, fun _ _ h => ⟨screen_file hk he h, acceptFd_registration⟩⟩
    have hlt := Heap.lt_next h
    exact (Heap.block_free_of_ne (by omega)).trans (mallocs_of_some h)
  | accepted _ _ cFd flags he _ =>
    refine ⟨fun p b h => ?_, fun fd f h => ?_⟩
    · have hlt := Heap.lt_next h
      rw [pollAdd_heap]
      exact assemble_of_ne (acceptFd_heap ▸ mallocs_of_some h) (by omega)
    · rw [pollAdd_file, pollAdd_of_ne (hk.ne he h)]
      exact ⟨screen_file hk he h, acceptFd_registration⟩

/-- The blocks that a turn allocates and neither frees nor hands to a registered connection. -/
def leak (k : AcceptAnswers) : ℕ :=
  if k.mallocClient = false then 0
  else if k.mallocConn = false then 1
  else
    match k.accept with
    | .error e => if e ≠ EAGAIN then 0 else 2
    | .ok _ => if k.acoCreate = false then 1 else if k.pollAdd then 0 else 3

theorem leak_eq_zero : leak k = 0 ↔ Clean k := by
  unfold leak Clean
  cases k.mallocClient <;> cases k.mallocConn <;> cases k.accept <;> cases k.acoCreate <;>
    cases k.pollAdd <;> simp

theorem leaks_eq_zero : (ks.map leak).sum = 0 ↔ ∀ k ∈ ks, Clean k := by
  rw [List.sum_eq_zero_iff_forall_eq_nat]
  simp [leak_eq_zero]

/-- What a turn adds to the registrations. -/
def registers (k : AcceptAnswers) : Bool := k.accepted.isSome && k.acoCreate && k.pollAdd

theorem live_mallocs : w.mallocs.heap.live.card = w.heap.live.card + 2 := by
  unfold World.mallocs World.malloc
  rw [Heap.card_alloc, Heap.card_alloc]

theorem accepted_eq (hclient : k.mallocClient = true) (hconn : k.mallocConn = true)
    (he : k.accept = .ok (cFd, flags)) : k.accepted = some cFd := by
  simp [AcceptAnswers.accepted, hclient, hconn, he]

/-- Three blocks for a registration, and the leak. -/
theorem balance_accept (h : AcceptEffect w k r) :
    r.1.heap.live.card = w.heap.live.card + (if registers k then 3 else 0) + leak k := by
  cases h with
  | noClient hclient => simp [leak, registers, AcceptAnswers.accepted, hclient]
  | noConn hclient hconn =>
    simp [leak, registers, AcceptAnswers.accepted, hclient, hconn, World.malloc, Heap.card_alloc]
  | failed hclient hconn e he hne =>
    have hfirst := Heap.card_free (h := w.mallocs.heap) mallocs_client
    have hconn' : (w.mallocs.heap.free w.heap.next).block (w.heap.next + 1) = some (.conn none) :=
      (Heap.block_free_of_ne (Nat.succ_ne_self _)).trans mallocs_conn
    have hsecond := Heap.card_free hconn'
    have hmallocs := live_mallocs (w := w)
    simp [leak, registers, AcceptAnswers.accepted, hclient, hconn, he, hne]
    omega
  | again hclient hconn he =>
    have hmallocs := live_mallocs (w := w)
    simp [leak, registers, AcceptAnswers.accepted, hclient, hconn, he, hmallocs]
  | noRoutine hclient hconn cFd flags he hcreate =>
    have hfree := Heap.card_free (h := w.mallocs.heap) mallocs_conn
    have hmallocs := live_mallocs (w := w)
    simp [leak, registers, hclient, hconn, he, hcreate]
    omega
  | accepted hclient hconn cFd flags he hcreate =>
    have hlive : (((w.acceptFd cFd flags).screen cFd k).assemble w.heap.next (w.heap.next + 1)
        cFd).heap.live.card = w.heap.live.card + 3 := by
      rw [assemble_live, acceptFd_heap, Finset.card_insert_of_notMem Heap.next_notMem_live,
        live_mallocs]
    rw [pollAdd_heap, hlive]
    cases hadd : k.pollAdd <;>
      simp [leak, registers, accepted_eq hclient hconn he, hclient, hconn, he, hcreate, hadd]

theorem screen_open (h : w.fds.file cFd = none) :
    ∃ f, ((w.acceptFd cFd flags).screen cFd k).fds.file cFd = some f := by
  have hopen : (w.fds.openFile cFd flags).file cFd = some ⟨w.fds.opened, flags⟩ :=
    Descriptors.file_openFile_self h
  unfold World.screen setNonBlocking
  cases k.setfl with
  | some e => exact ⟨_, hopen⟩
  | none => exact ⟨_, Descriptors.file_setFlags_self hopen⟩

theorem screen_registration {x : BitVec 32} (h : w.fds.file cFd = none) :
    ((w.acceptFd cFd x).screen cFd k).fds.registration cFd = none :=
  acceptFd_registration.trans (w.fds.registered_open cFd h)

/-- What has become of the descriptors when a turn has accepted one. -/
theorem file_accept (h : AcceptEffect w k r) (ha : k.accepted = some fd) :
    ∃ flags, k.accept = .ok (fd, flags) ∧
      r.1.fds.file = ((w.acceptFd fd flags).screen fd k).fds.file := by
  cases h with
  | noClient hclient => simp [AcceptAnswers.accepted, hclient] at ha
  | noConn hclient hconn => simp [AcceptAnswers.accepted, hconn] at ha
  | failed hclient hconn e he hne => simp [AcceptAnswers.accepted, he] at ha
  | again hclient hconn he => simp [AcceptAnswers.accepted, he] at ha
  | noRoutine hclient hconn cFd flags he hcreate =>
    obtain rfl : cFd = fd := by simpa [accepted_eq hclient hconn he] using ha
    exact ⟨flags, he, rfl⟩
  | accepted hclient hconn cFd flags he hcreate =>
    obtain rfl : cFd = fd := by simpa [accepted_eq hclient hconn he] using ha
    exact ⟨flags, he, pollAdd_file⟩

/-- An accepted descriptor is open after the turn, and registered if the turn says so. -/
theorem registration_accept (hk : FreshFd w k) (h : AcceptEffect w k r)
    (ha : k.accepted = some fd) :
    (∃ f, r.1.fds.file fd = some f) ∧ (r.1.fds.registration fd).isSome = registers k := by
  obtain ⟨flags, he, hfile⟩ := file_accept h ha
  have hopen : ∃ f, ((w.acceptFd fd flags).screen fd k).fds.file fd = some f :=
    screen_open (hk _ _ he)
  have hclosed := screen_registration (k := k) (x := flags) (hk _ _ he)
  rw [hfile]
  refine ⟨hopen, ?_⟩
  cases h with
  | noClient hclient => simp [AcceptAnswers.accepted, hclient] at ha
  | noConn hclient hconn => simp [AcceptAnswers.accepted, hconn] at ha
  | failed hclient hconn e he' hne => simp [he'] at he
  | again hclient hconn he' => simp [he'] at he
  | noRoutine hclient hconn cFd flags' he' hcreate =>
    obtain ⟨rfl, rfl⟩ : cFd = fd ∧ flags' = flags := by simpa [he'] using he
    simp [registers, hcreate, hclosed]
  | accepted hclient hconn cFd flags' he' hcreate =>
    obtain ⟨rfl, rfl⟩ : cFd = fd ∧ flags' = flags := by simpa [he'] using he
    obtain ⟨f, hf⟩ := hopen
    simp only [registers, ha, hcreate, Option.isSome_some, Bool.true_and]
    cases k.pollAdd with
    | false => exact congrArg Option.isSome hclosed
    | true => exact congrArg Option.isSome (Descriptors.registration_register_self hf)

theorem effect_of_ok {b : Bool} (h : handleAccept w k = .ok (w', b)) :
    AcceptEffect w k (w', b) := by
  obtain ⟨r, hr, heff⟩ := handleAccept_effect (w := w) (k := k)
  rw [h] at hr
  cases hr
  exact heff

theorem accepted_cons : accepted (k :: ks) = accepted [k] ++ accepted ks :=
  List.filterMap_append (l := [k])

theorem extends_call (h : AcceptCall w ks w') : Extends w w' := by
  induction h with
  | last hk h => exact extends_accept hk (effect_of_ok h)
  | turn hk h _ ih => exact (extends_accept hk (effect_of_ok h)).trans ih

/-- The registrations of a call are those of its turns. -/
theorem registered_call (h : AcceptCall w ks w') :
    (accepted ks).countP (fun fd => (w'.fds.registration fd).isSome) = ks.countP registers := by
  have hhead {w w₁ w' : World} {k : AcceptAnswers} {b : Bool} (hk : FreshFd w k)
      (h : handleAccept w k = .ok (w₁, b)) (hext : Extends w₁ w') :
      (accepted [k]).countP (fun fd => (w'.fds.registration fd).isSome) = [k].countP registers := by
    cases ha : k.accepted with
    | none => simp [accepted, registers, ha]
    | some fd =>
      obtain ⟨⟨f, hf⟩, hreg⟩ := registration_accept hk (effect_of_ok h) ha
      rw [← (hext.file fd f hf).2] at hreg
      simp [accepted, ha, hreg]
  induction h with
  | last hk h => exact hhead hk h ⟨fun _ _ h => h, fun _ _ h => ⟨h, rfl⟩⟩
  | @turn w w₁ w' k ks hk h hrest ih =>
    rw [accepted_cons, List.countP_append, ih, hhead hk h (extends_call hrest),
      ← List.countP_append, List.singleton_append]

theorem balance_call (h : AcceptCall w ks w') :
    w'.heap.live.card = w.heap.live.card + 3 * ks.countP registers + (ks.map leak).sum := by
  induction h with
  | @last w w' k hk h =>
    have hturn := balance_accept (effect_of_ok h)
    cases hr : registers k <;> simp_all
  | @turn w w₁ w' k ks hk h hrest ih =>
    have hturn := balance_accept (effect_of_ok h)
    rw [List.countP_cons, List.map_cons, List.sum_cons]
    cases hr : registers k <;> simp_all <;> omega

/-- Every accepted connection is served, and every new block belongs to one of them. -/
structure AllServed (w : World) (ks : List AcceptAnswers) (w' : World) : Prop where
  served : ∀ fd ∈ accepted ks, ∃ p c, Served w' fd p c .created
  owned : ∀ b ∈ w'.heap.live, b ∉ w.heap.live → ∃ fd ∈ accepted ks, ∃ p c,
    Served w' fd p c .created ∧ (b = p ∨ b = c.routine ∨ b = c.sa)

theorem AllServed.append {k : AcceptAnswers} (h : AllServed w [k] w₁) (hext : Extends w₁ w')
    (hrest : AllServed w₁ ks w') : AllServed w (k :: ks) w' := by
  refine ⟨fun fd hfd => ?_, fun b hb hold => ?_⟩
  · rw [accepted_cons, List.mem_append] at hfd
    rcases hfd with hfd | hfd
    · obtain ⟨p, c, hs⟩ := h.served fd hfd
      exact ⟨p, c, hext.served hs⟩
    · exact hrest.served fd hfd
  · rw [accepted_cons]
    by_cases hmid : b ∈ w₁.heap.live
    · obtain ⟨fd, hfd, p, c, hs, hown⟩ := h.owned b hmid hold
      exact ⟨fd, List.mem_append_left _ hfd, p, c, hext.served hs, hown⟩
    · obtain ⟨fd, hfd, p, c, hs, hown⟩ := hrest.owned b hb hmid
      exact ⟨fd, List.mem_append_right _ hfd, p, c, hs, hown⟩

/-- What a turn that comes through to `poll_add` leaves behind. -/
theorem served_accept (hk : FreshFd w k) (he : k.accept = .ok (cFd, flags)) :
    Served (pollAdd (((w.acceptFd cFd flags).screen cFd k).assemble w.heap.next (w.heap.next + 1)
      cFd) cFd (w.heap.next + 1) true).1 cFd (w.heap.next + 1)
      ⟨cFd, w.heap.next + 2, w.heap.next⟩ .created := by
  have hconn : ((w.acceptFd cFd flags).screen cFd k).heap.block (w.heap.next + 1) =
      some (.conn none) := acceptFd_heap ▸ mallocs_conn
  have hclient : ((w.acceptFd cFd flags).screen cFd k).heap.block w.heap.next =
      some .sockaddr := acceptFd_heap ▸ mallocs_client
  have hnext : ((w.acceptFd cFd flags).screen cFd k).heap.next = w.heap.next + 2 := by
    rw [acceptFd_heap]
    rfl
  obtain ⟨f, hf⟩ : ∃ f, ((w.acceptFd cFd flags).screen cFd k).fds.file cFd = some f :=
    screen_open (hk _ _ he)
  refine ⟨Descriptors.registration_register_self hf, ?_, rfl, ?_, ?_⟩
  · rw [pollAdd_heap, assemble_conn hconn, hnext]
  · rw [pollAdd_heap, ← hnext]
    exact assemble_routine hconn
  · rw [pollAdd_heap]
    exact assemble_of_ne hclient (Nat.succ_ne_self _).symm

/-- A turn registers nothing but the connection it has put together. -/
theorem registered_accept {u : Option ℕ} (hk : FreshFd w k)
    (h : AcceptEffect w k r) (hu : r.1.fds.registration fd = some u) :
    w.fds.registration fd = some u ∨
      k.accepted = some fd ∧
        ∃ p c, u = some p ∧ Served r.1 fd p c .created ∧ c.sa = w.heap.next := by
  cases h with
  | noClient => exact .inl hu
  | noConn => exact .inl hu
  | failed => exact .inl hu
  | again => exact .inl hu
  | noRoutine => exact .inl (acceptFd_registration.symm.trans hu)
  | accepted hclient hconn cFd flags he =>
    cases hadd : k.pollAdd with
    | false =>
      rw [hadd] at hu
      exact .inl (acceptFd_registration.symm.trans hu)
    | true =>
      rw [hadd] at hu
      by_cases hfd : fd = cFd
      · subst hfd
        have hs := served_accept hk he
        have hudata := hu.symm.trans hs.registered
        exact .inr ⟨accepted_eq hclient hconn he, _, _, by simpa using hudata, hs, rfl⟩
      · rw [pollAdd_of_ne hfd] at hu
        exact .inl (acceptFd_registration.symm.trans hu)

theorem allServed_accept (hk : FreshFd w k) (h : AcceptEffect w k r) (hc : Clean k) :
    AllServed w [k] r.1 := by
  cases h with
  | noClient hclient =>
    refine ⟨fun fd hfd => ?_, fun b hb hold => absurd hb hold⟩
    simp [accepted, AcceptAnswers.accepted, hclient] at hfd
  | noConn hclient hconn => simp [Clean, hclient, hconn] at hc
  | failed hclient hconn e he hne =>
    refine ⟨fun fd hfd => ?_, fun b hb hold => ?_⟩
    · simp [accepted, AcceptAnswers.accepted, he] at hfd
    · change b ∈ ((w.mallocs.heap.free w.heap.next).free (w.heap.next + 1)).live at hb
      rw [Heap.live_free, Heap.live_free, Finset.mem_erase, Finset.mem_erase] at hb
      obtain ⟨hb1, hb0, hb⟩ := hb
      simp only [World.mallocs, World.malloc, Heap.live_alloc, Heap.next_alloc,
        Finset.mem_insert] at hb
      exact absurd (((hb.resolve_left hb1).resolve_left hb0)) hold
  | again hclient hconn he => simp [Clean, hclient, hconn, he] at hc
  | noRoutine hclient hconn cFd flags he hcreate => simp [Clean, hclient, hconn, he, hcreate] at hc
  | accepted hclient hconn cFd flags he hcreate =>
    have hadd : k.pollAdd = true := by
      have hclean := (hc hclient).2
      rw [he] at hclean
      exact hclean.2
    have hs := served_accept hk he
    have hmem : cFd ∈ accepted [k] := by simp [accepted, accepted_eq hclient hconn he]
    rw [hadd]
    refine ⟨fun fd hfd => ?_, fun b hb hold => ⟨cFd, hmem, _, _, hs, ?_⟩⟩
    · obtain rfl : fd = cFd := by simpa [accepted, accepted_eq hclient hconn he] using hfd
      exact ⟨_, _, hs⟩
    · rw [pollAdd_heap, assemble_live, acceptFd_heap, Finset.mem_insert] at hb
      simp only [World.mallocs, World.malloc, Heap.live_alloc, Heap.next_alloc,
        Finset.mem_insert] at hb
      rcases hb with hb | hb | hb | hb
      · exact .inr (.inl hb)
      · exact .inl hb
      · exact .inr (.inr hb)
      · exact absurd hb hold

theorem allServed_call (h : AcceptCall w ks w') (hc : ∀ k ∈ ks, Clean k) : AllServed w ks w' := by
  induction h with
  | last hk h => exact allServed_accept hk (effect_of_ok h) (hc _ (by simp))
  | turn hk h hrest ih =>
    have hturn := allServed_accept hk (effect_of_ok h) (hc _ (by simp))
    exact hturn.append (extends_call hrest) (ih fun k hmem => hc k (List.mem_cons_of_mem _ hmem))

/-- A call of `handle_accept` keeps the balance if and only if every turn of it is one of those
that the code gets right. -/
theorem allOrNothing_iff (h : AcceptCall w ks w') :
    AllOrNothing w ks w' ↔ ∀ k ∈ ks, Clean k := by
  have hbalance := balance_call h
  constructor
  · intro hall
    have hcount := hall.balance
    rw [registered_call h] at hcount
    exact leaks_eq_zero.mp (by omega)
  · intro hc
    obtain ⟨hserved, howned⟩ := allServed_call h hc
    refine ⟨fun fd hfd => .inl (hserved fd hfd), fun b hb => (extends_call h).live hb, howned, ?_⟩
    have hleaks := leaks_eq_zero.mpr hc
    rw [registered_call h]
    omega

/-- Every `malloc`, `fcntl`, `aco_create` and `poll_add` succeeds. -/
def AcceptAnswers.plain (accept : Except Errno (ℕ × BitVec 32)) : AcceptAnswers :=
  ⟨true, true, accept, none, none, true, true⟩

/-- One client is accepted, then there is none left. -/
theorem oneClient_call : ∃ w', AcceptCall .empty [.plain (.ok (5, 2)), .plain (.error EAGAIN)] w' ∧
    w'.heap.live.card = 5 := by
  refine ⟨_, .turn (fun _ _ _ => rfl) rfl (.last ?_ rfl), rfl⟩
  intro cFd flags he
  cases he

theorem allOrNothing_iff_oneClient :
    ∃ w' : World, AcceptCall .empty [.plain (.ok (5, 2)), .plain (.error EAGAIN)] w' ∧
      w'.heap.live.card = 5 ∧
      (AllOrNothing .empty [.plain (.ok (5, 2)), .plain (.error EAGAIN)] w' ↔
        ∀ k ∈ [AcceptAnswers.plain (.ok (5, 2)), .plain (.error EAGAIN)], Clean k) := by
  obtain ⟨w', hcall, hlive⟩ := oneClient_call
  exact ⟨w', hcall, hlive, allOrNothing_iff hcall⟩

/-- The `sockaddr` and the `conn_t` that were meant for the next client are left behind. -/
theorem again_leaks : ¬ ∀ (w : World) (ks : List AcceptAnswers) (w' : World),
    AcceptCall w ks w' → AllOrNothing w ks w' := by
  intro hall
  obtain ⟨w', hcall, hlive⟩ := oneClient_call
  have hbalance := (hall _ _ _ hcall).balance
  rw [hlive, registered_call hcall] at hbalance
  revert hbalance
  decide

end UnixCodes.AcoHttpd
