import UnixCodes.AcoHttpd.Server

/-! Ownership of a connection, from `poll_add` through its routine to the loop that frees it. -/
namespace UnixCodes.AcoHttpd

open Posix Transition

variable {sFd fd p q conn co : ℕ} {w w' : World} {s s' : Server} {c c' : Conn} {pc pc' : Pc}
  {busy busy' : Option ℕ} {k : Answers} {ka : AcceptAnswers} {evs : List Item} {x : Item}

/-- Between two resumptions. -/
def Pc.Waiting (pc : Pc) : Prop := pc = .created ∨ pc = .yielded

/-- The connection that a registration leads to. -/
def Owns (w : World) (fd : ℕ) (c : Conn) : Prop :=
  ∃ p, w.fds.registration fd = some (some p) ∧ w.heap.block p = some (.conn (some c))

/-- Only the listening socket is registered without a connection, every other registration is
served by a routine that waits, unless it is the one at work, and no `sockaddr` is shared. -/
structure Clients (sFd : ℕ) (w : World) (busy : Option ℕ) : Prop where
  listener : ∀ fd, w.fds.registration fd = some none → fd = sFd
  served : ∀ fd p, w.fds.registration fd = some (some p) →
    ∃ c pc, Served w fd p c pc ∧ (busy ≠ some p → pc.Waiting)
  apart : ∀ fd fd' c c', Owns w fd c → Owns w fd' c' → c.sa = c'.sa → fd = fd'

/-- The rest of the batch is still registered as it was reported. -/
structure Pending (w : World) (evs : List Item) : Prop where
  nodup : (evs.map Item.ident).Nodup
  registered : ∀ x ∈ evs, w.fds.registration x.ident = some x.udata

/-- The connection at work, whose routine `co` stands at `pc`. -/
structure Current (w : World) (conn co : ℕ) (c : Conn) (pc : Pc) : Prop where
  block : w.heap.block conn = some (.conn (some c))
  routine_eq : c.routine = co
  routine : w.heap.block co = some (.routine conn pc)

def Unserved (w : World) (conn : ℕ) : Prop := ∀ fd, w.fds.registration fd ≠ some (some conn)

/-- The running routine is registered until `poll_delete` has given the descriptor back. -/
structure Inside (w : World) (conn co : ℕ) (evs : List Item) (c : Conn) (pc : Pc) : Prop where
  current : Current w conn co c pc
  running : pc.Running
  stage : pc ≠ .exiting ∧ Served w c.fd conn c pc ∧ c.fd ∉ evs.map Item.ident ∨
    pc = .exiting ∧ Unserved w conn

def Sound (sFd : ℕ) (s : Server) : Prop :=
  match s.loop with
  | .wait => Clients sFd s.world none
  | .batch evs => Clients sFd s.world none ∧ Pending s.world evs
  | .accepting evs => Clients sFd s.world none ∧ Pending s.world evs
  | .inside conn co evs => Clients sFd s.world (some conn) ∧ Pending s.world evs ∧
      ∃ c pc, Inside s.world conn co evs c pc
  | .resumed conn evs => Clients sFd s.world none ∧ Pending s.world evs ∧
      ∃ c pc, Current s.world conn c.routine c pc ∧
        (pc = .yielded ∨ pc = .ended ∧ Unserved s.world conn)

theorem Served.current (h : Served w fd p c pc) : Current w p c.routine c pc :=
  ⟨h.conn, rfl, h.routine⟩

/-- A registration has one connection. -/
theorem Served.conn_eq (h : Served w fd p c pc) (hc : w.heap.block p = some (.conn (some c'))) :
    c = c' := by
  rw [h.conn] at hc
  simpa using hc

theorem Served.fd_unique (h : Served w fd p c pc) (hc : w.heap.block p = some (.conn (some c'))) :
    c'.fd = fd := h.conn_eq hc ▸ h.fd_eq

/-- Nothing new is registered and no `conn_t` is written. -/
structure Shrinks (w w' : World) : Prop where
  registration : ∀ fd u, w'.fds.registration fd = some u → w.fds.registration fd = some u
  conn : ∀ p c, w'.heap.block p = some (.conn (some c)) → w.heap.block p = some (.conn (some c))

/-- Under such a step it is enough to see to the registrations that are left. -/
theorem Clients.shrink (h : Clients sFd w busy) (hs : Shrinks w w')
    (hserved : ∀ fd p c pc, w'.fds.registration fd = some (some p) → Served w fd p c pc →
      (busy ≠ some p → pc.Waiting) → ∃ pc', Served w' fd p c pc' ∧ (busy' ≠ some p → pc'.Waiting)) :
    Clients sFd w' busy' := by
  refine ⟨fun fd hfd => h.listener fd (hs.registration fd _ hfd), fun fd p hfd => ?_, ?_⟩
  · obtain ⟨c, pc, hc, hw⟩ := h.served fd p (hs.registration fd _ hfd)
    obtain ⟨pc', hc', hw'⟩ := hserved fd p c pc hfd hc hw
    exact ⟨c, pc', hc', hw'⟩
  · rintro fd fd' c c' ⟨p, hp, hc⟩ ⟨p', hp', hc'⟩
    exact h.apart fd fd' c c' ⟨p, hs.registration fd _ hp, hs.conn p c hc⟩
      ⟨p', hs.registration fd' _ hp', hs.conn p' c' hc'⟩

/-! A step of the routine: only its own block is written. -/

theorem store_of_ne (h : q ≠ co) {b : Block} : (w.store co b).heap.block q = w.heap.block q :=
  Heap.block_store_of_ne h

theorem Current.conn_ne (h : Current w conn co c pc) : conn ≠ co := by
  rintro rfl
  have hboth := h.block.symm.trans h.routine
  simp at hboth

theorem Current.store (h : Current w conn co c pc) (pc' : Pc) :
    Current (w.store co (.routine conn pc')) conn co c pc' :=
  ⟨(store_of_ne h.conn_ne).trans h.block, h.routine_eq, Heap.block_store_self h.routine⟩

theorem shrinks_store (h : Current w conn co c pc) :
    Shrinks w (w.store co (.routine conn pc')) := by
  refine ⟨fun _ _ h => h, fun p c hp => ?_⟩
  by_cases he : p = co
  · rw [he, (h.store pc').routine] at hp
    simp at hp
  · rwa [store_of_ne he] at hp

/-- The connection at work follows its routine. -/
theorem Served.store_self (h : Served w fd conn c pc) :
    Served (w.store c.routine (.routine conn pc')) fd conn c pc' := by
  have hcur := h.current.store pc'
  refine ⟨h.registered, hcur.block, h.fd_eq, hcur.routine, ?_⟩
  rw [store_of_ne]
  · exact h.sa
  · intro he
    have hboth := h.sa.symm.trans (he ▸ h.routine)
    simp at hboth

/-- The other connections do not notice. -/
theorem Served.store_other (h : Served w fd p c pc) (hcur : Current w conn co c' pc')
    (hne : p ≠ conn) {pc'' : Pc} : Served (w.store co (.routine conn pc'')) fd p c pc := by
  have hkeep {q : ℕ} {b : Block} (hq : w.heap.block q = some b) (hb : b ≠ .routine conn pc') :
      (w.store co (.routine conn pc'')).heap.block q = some b := by
    rw [store_of_ne, hq]
    rintro rfl
    rw [hcur.routine] at hq
    simp at hq
    exact hb hq.symm
  refine ⟨h.registered, hkeep h.conn (by simp), h.fd_eq, hkeep h.routine ?_, hkeep h.sa (by simp)⟩
  simp [hne]

theorem clients_store (h : Clients sFd w busy) (hcur : Current w conn co c pc)
    (hbusy : ∀ q, q ≠ conn → busy ≠ some q)
    (hidle : busy' ≠ some conn → pc'.Waiting ∨ Unserved w conn) :
    Clients sFd (w.store co (.routine conn pc')) busy' := by
  refine h.shrink (shrinks_store hcur) (fun fd p c₁ pc₁ hfd hs hw => ?_)
  by_cases he : p = conn
  · subst he
    obtain rfl := hs.conn_eq hcur.block
    obtain rfl := hcur.routine_eq
    refine ⟨pc', hs.store_self, fun hb => ?_⟩
    exact (hidle hb).resolve_right (fun hun => hun fd hs.registered)
  · exact ⟨pc₁, hs.store_other hcur he, fun _ => hw (hbusy p he)⟩

theorem pending_of_registration (h : Pending w evs)
    (hs : ∀ x ∈ evs, w'.fds.registration x.ident = w.fds.registration x.ident) : Pending w' evs :=
  ⟨h.nodup, fun x hx => (hs x hx).trans (h.registered x hx)⟩

/-! `poll_delete`: the registration, the `sockaddr` and the descriptor go. -/

def World.release (w : World) (c : Conn) : World :=
  { w with heap := w.heap.free c.sa, fds := (w.fds.deregister c.fd).close c.fd }

theorem conn_ok (h : w.heap.block p = some (.conn (some c))) : w.conn p = .ok c := by
  simp [World.conn, h]

theorem routine_ok (h : w.heap.block co = some (.routine conn pc)) :
    w.routine co = .ok (conn, pc) := by
  simp [World.routine, h]

theorem pollDelete_ok (h : Served w c.fd conn c pc) :
    pollDelete w conn none = .ok (w.release c) := by
  obtain ⟨f, hf⟩ := Descriptors.open_of_registered h.registered
  have hfree := free_ok (w := { w with fds := w.fds.deregister c.fd }) h.sa
  have hclose : World.close { w with heap := w.heap.free c.sa, fds := w.fds.deregister c.fd } c.fd =
      .ok (w.release c) := if_pos (by simp [hf])
  unfold pollDelete
  rw [conn_ok h.conn]
  change (World.free { w with fds := w.fds.deregister c.fd } c.sa >>= fun w => w.close c.fd) = _
  rw [hfree]
  exact hclose

theorem release_registration (hne : fd ≠ c.fd) :
    (w.release c).fds.registration fd = w.fds.registration fd :=
  (Descriptors.registration_close_of_ne hne).trans (Descriptors.registration_deregister_of_ne hne)

theorem registered_release {u : Option ℕ} (h : (w.release c).fds.registration fd = some u) :
    fd ≠ c.fd ∧ w.fds.registration fd = some u := by
  have hne : fd ≠ c.fd := by
    rintro rfl
    exact Option.some_ne_none _ (h.symm.trans Descriptors.registration_close_self)
  exact ⟨hne, (release_registration hne).symm.trans h⟩

theorem block_free_of_some {b : Block} (h : (w.heap.free q).block p = some b) :
    w.heap.block p = some b := by
  by_cases he : p = q
  · rw [he, Heap.block_free_self] at h
    cases h
  · rwa [Heap.block_free_of_ne he] at h

theorem shrinks_release : Shrinks w (w.release c) :=
  ⟨fun _ _ h => (registered_release h).2, fun _ _ h => block_free_of_some h⟩

theorem block_release {b : Block} (h : w.heap.block q = some b)
    (hsa : w.heap.block c.sa = some .sockaddr) (hb : b ≠ .sockaddr) :
    (w.release c).heap.block q = some b := by
  refine (Heap.block_free_of_ne ?_).trans h
  rintro rfl
  rw [hsa] at h
  exact hb (by simpa using h.symm)

theorem Current.release (h : Current w conn co c pc) (hsa : w.heap.block c.sa = some .sockaddr) :
    Current (w.release c) conn co c pc :=
  ⟨block_release h.block hsa (by simp), h.routine_eq, block_release h.routine hsa (by simp)⟩

theorem unserved_release (h : Clients sFd w busy) (hs : Served w c.fd conn c pc) :
    Unserved (w.release c) conn := by
  intro fd hfd
  obtain ⟨hne, hreg⟩ := registered_release hfd
  obtain ⟨c', pc', hc', -⟩ := h.served fd conn hreg
  exact hne (hc'.fd_unique hs.conn).symm

theorem clients_release (h : Clients sFd w (some conn)) (hs : Served w c.fd conn c pc) :
    Clients sFd (w.release c) (some conn) := by
  refine h.shrink shrinks_release (fun fd p c' pc' hfd hc' hw => ⟨pc', ?_, hw⟩)
  obtain ⟨hne, -⟩ := registered_release hfd
  have hsa : c'.sa ≠ c.sa := fun he => hne (h.apart fd c.fd c' c ⟨p, hc'.registered, hc'.conn⟩
    ⟨conn, hs.registered, hs.conn⟩ he)
  exact ⟨hfd, block_release hc'.conn hs.sa (by simp), hc'.fd_eq,
    block_release hc'.routine hs.sa (by simp), (Heap.block_free_of_ne hsa).trans hc'.sa⟩

/-! The loop frees the routine and the connection of a routine that has ended. -/

def World.bury (w : World) (conn co : ℕ) : World :=
  { w with heap := (w.heap.free co).free conn }

theorem clients_bury (h : Clients sFd w busy) (hcur : Current w conn co c pc)
    (hun : Unserved w conn) : Clients sFd (w.bury conn co) busy := by
  have hshrinks : Shrinks w (w.bury conn co) :=
    ⟨fun _ _ h => h, fun p c hp => block_free_of_some (w := w) (block_free_of_some
      (w := { w with heap := w.heap.free co }) hp)⟩
  have hkeep {q : ℕ} {b : Block} (hq : w.heap.block q = some b) (hb : b ≠ .routine conn pc)
      (hc : b ≠ .conn (some c)) : (w.bury conn co).heap.block q = some b := by
    refine (Heap.block_free_of_ne ?_).trans ((Heap.block_free_of_ne ?_).trans hq)
    · rintro rfl
      rw [hcur.block] at hq
      exact hc (by simpa using hq.symm)
    · rintro rfl
      rw [hcur.routine] at hq
      exact hb (by simpa using hq.symm)
  refine h.shrink hshrinks (fun fd p c' pc' hfd hs hw => ⟨pc', ?_, hw⟩)
  have hne : p ≠ conn := fun he => hun fd (he ▸ hfd)
  refine ⟨hfd, ?_, hs.fd_eq, hkeep hs.routine (by simp [hne]) (by simp),
    hkeep hs.sa (by simp) (by simp)⟩
  refine (Heap.block_free_of_ne hne).trans ((Heap.block_free_of_ne ?_).trans hs.conn)
  rintro rfl
  have hboth := hs.conn.symm.trans hcur.routine
  simp at hboth

/-! A turn of `handle_accept`. -/

theorem clients_accept {r : World × Bool} (hk : FreshFd w ka) (h : AcceptEffect w ka r)
    (hc : Clients sFd w none) : Clients sFd r.1 none := by
  have hext := extends_accept hk h
  -- A connection of the new world is an old one or the one just put together.
  have howns {fd : ℕ} {c : Conn} (ho : Owns r.1 fd c) :
      (∃ b, w.heap.block c.sa = some b ∧ Owns w fd c) ∨
        c.sa = w.heap.next ∧ ka.accepted = some fd := by
    obtain ⟨p, hp, hconn⟩ := ho
    cases hold : w.fds.registration fd with
    | some u =>
      obtain ⟨f, hf⟩ := Descriptors.open_of_registered hold
      have hreg := (hext.file fd f hf).2.symm.trans hp
      obtain ⟨c', pc', hs, -⟩ := hc.served fd p hreg
      obtain rfl := (hext.served hs).conn_eq hconn
      exact .inl ⟨_, hs.sa, p, hreg, hs.conn⟩
    | none =>
      rcases registered_accept hk h hp with hreg | ⟨hacc, p', c', hpp, hs, hsa⟩
      · rw [hold] at hreg
        cases hreg
      · cases hpp
        obtain rfl := hs.conn_eq hconn
        exact .inr ⟨hsa, hacc⟩
  refine ⟨fun fd hfd => ?_, fun fd p hfd => ?_, fun fd fd' c c' ho ho' he => ?_⟩
  · rcases registered_accept hk h hfd with hreg | ⟨-, p, c, hp, -⟩
    · exact hc.listener fd hreg
    · cases hp
  · rcases registered_accept hk h hfd with hreg | ⟨-, p', c, hp, hs, -⟩
    · obtain ⟨c, pc, hs, hw⟩ := hc.served fd p hreg
      exact ⟨c, pc, hext.served hs, hw⟩
    · cases hp
      exact ⟨c, .created, hs, fun _ => .inl rfl⟩
  · rcases howns ho with ⟨b, hb, ho⟩ | ⟨hsa, hacc⟩
    · rcases howns ho' with ⟨b', -, ho'⟩ | ⟨hsa', -⟩
      · exact hc.apart fd fd' c c' ho ho' he
      · exact absurd (he.trans hsa') (Heap.ne_next hb)
    · rcases howns ho' with ⟨b', hb', -⟩ | ⟨-, hacc'⟩
      · exact absurd (he.symm.trans hsa) (Heap.ne_next hb')
      · exact Option.some_inj.mp (hacc.symm.trans hacc')

theorem pending_accept {r : World × Bool} (hk : FreshFd w ka) (h : AcceptEffect w ka r)
    (hp : Pending w evs) : Pending r.1 evs := by
  refine pending_of_registration hp (fun x hx => ?_)
  obtain ⟨f, hf⟩ := Descriptors.open_of_registered (hp.registered x hx)
  exact ((extends_accept hk h).file _ f hf).2

/-! The steps of the loop. -/

theorem acoResume_waiting (h : pc.Waiting) : acoResume pc = some .reading := by
  rcases h with rfl | rfl <;> rfl

theorem dispatch_ok {n : ℕ} (h : Served w fd p c pc) (hw : pc.Waiting) :
    dispatch w ⟨n, some p⟩ =
      .ok (w.store c.routine (.routine p .reading), p, c.routine) := by
  unfold dispatch
  dsimp only
  rw [conn_ok h.conn]
  change (w.routine c.routine >>= _) = _
  rw [routine_ok h.routine]
  simp only [bind, Except.bind, acoResume_waiting hw]

/-- A call of the routine other than `poll_delete` moves only its program counter. -/
theorem call_ok (h : Current w conn co c pc) (hne : pc ≠ .deleting) :
    w.call co k = .ok (w.store co (.routine conn (clientRoutine pc k)),
      decide (clientRoutine pc k).Running) := by
  unfold World.call
  rw [routine_ok h.routine]
  cases pc with
  | deleting => exact (hne rfl).elim
  | reading =>
    change (w.conn conn >>= _) = _
    rw [conn_ok h.block]
    rfl
  | writing =>
    change (w.conn conn >>= _) = _
    rw [conn_ok h.block]
    rfl
  | created => rfl
  | yielding => rfl
  | yielded => rfl
  | exiting => rfl
  | ended => rfl

theorem call_delete (h : Current w conn co c .deleting) (hs : Served w c.fd conn c .deleting)
    (hk : k.delete = none) :
    w.call co k = .ok ((w.release c).store co (.routine conn .exiting), true) := by
  unfold World.call
  rw [routine_ok h.routine]
  change (pollDelete w conn k.delete >>= _) = _
  rw [hk, pollDelete_ok hs]
  rfl

theorem reap_waiting (h : Current w conn c.routine c pc) (hne : pc ≠ .ended) :
    reap w conn = .ok w := by
  unfold reap
  rw [conn_ok h.block]
  change (w.routine c.routine >>= _) = _
  rw [routine_ok h.routine]
  exact if_neg hne

theorem reap_ended (h : Current w conn c.routine c .ended) :
    reap w conn = .ok (w.bury conn c.routine) := by
  have hconn : (w.heap.free c.routine).block conn = some (.conn (some c)) :=
    (Heap.block_free_of_ne h.conn_ne).trans h.block
  unfold reap
  rw [conn_ok h.block]
  change (w.routine c.routine >>= _) = _
  rw [routine_ok h.routine]
  change (w.free c.routine >>= fun w => w.free conn) = _
  rw [free_ok h.routine]
  exact free_ok (w := { w with heap := w.heap.free c.routine }) hconn

theorem Pending.tail (h : Pending w (x :: evs)) : Pending w evs :=
  ⟨(List.nodup_cons.mp h.nodup).2, fun y hy => h.registered y (List.mem_cons_of_mem _ hy)⟩

/-- While it is registered a routine goes on or yields. -/
theorem serving_step (h : RoutineStep k pc pc') (hd : pc ≠ .deleting) (he : pc ≠ .exiting) :
    pc'.Running ∧ pc' ≠ .exiting ∨ pc' = .yielded := by
  cases h <;> simp_all [Pc.Running]

theorem sound_dispatch (hc : Clients sFd w none) (hp : Pending w (x :: evs)) (hne : x.ident ≠ sFd) :
    ∃ s, (dispatch w x).map (fun r => Server.mk r.1 (.inside r.2.1 r.2.2 evs)) = .ok s ∧
      Sound sFd s := by
  obtain ⟨n, u⟩ := x
  have hreg : w.fds.registration n = some u := hp.registered _ List.mem_cons_self
  cases u with
  | none => exact absurd (hc.listener n hreg) hne
  | some p =>
    obtain ⟨c, pc, hs, hw⟩ := hc.served n p hreg
    obtain rfl := hs.fd_eq
    rw [dispatch_ok hs (hw (by simp))]
    refine ⟨_, rfl, ?_, ?_, c, .reading, ?_⟩
    · exact clients_store hc hs.current (by simp) (fun hb => absurd rfl hb)
    · exact pending_of_registration hp.tail (fun _ _ => rfl)
    · have hnot := (List.nodup_cons.mp hp.nodup).1
      exact ⟨hs.current.store _, trivial, .inl ⟨by simp, hs.store_self, hnot⟩⟩

theorem sound_call (hc : Clients sFd w (some conn)) (hp : Pending w evs)
    (hin : Inside w conn co evs c pc)
    (hdelete : ∀ c u, w.conn conn = .ok c → w.fds.registration c.fd = some u → k.delete = none) :
    ∃ s, (w.call co k).map (fun r =>
        Server.mk r.1 (if r.2 then .inside conn co evs else .resumed conn evs)) = .ok s ∧
      Sound sFd s := by
  obtain ⟨hcur, hrun, hstage⟩ := hin
  have hother : ∀ q, q ≠ conn → some conn ≠ some q := fun q hq he => hq (Option.some_inj.mp he).symm
  by_cases hdel : pc = .deleting
  · subst hdel
    obtain ⟨-, hs, hnot⟩ := hstage.resolve_right (by simp)
    have hk := hdelete c _ (conn_ok hcur.block) hs.registered
    rw [call_delete hcur hs hk]
    refine ⟨_, rfl, ?_, ?_, c, .exiting, ?_⟩
    · exact clients_store (clients_release hc hs) (hcur.release hs.sa) hother
        (fun hb => absurd rfl hb)
    · refine pending_of_registration hp (fun x hx => release_registration ?_)
      rintro he
      exact hnot (he ▸ List.mem_map_of_mem hx)
    · exact ⟨(hcur.release hs.sa).store _, trivial, .inr ⟨rfl, unserved_release hc hs⟩⟩
  · have hstep := clientRoutine_step (k := k) hrun
    have hpending : Pending (w.store co (.routine conn (clientRoutine pc k))) evs :=
      pending_of_registration hp (fun _ _ => rfl)
    rcases hstage with ⟨hne, hs, hnot⟩ | ⟨rfl, hun⟩
    · obtain rfl := hcur.routine_eq
      rcases serving_step hstep hdel hne with ⟨hrun', hne'⟩ | hyield
      · rw [call_ok hcur hdel, decide_eq_true hrun']
        refine ⟨_, rfl, ?_, hpending, c, clientRoutine pc k, ?_⟩
        · exact clients_store hc hcur hother (fun hb => absurd rfl hb)
        · exact ⟨hcur.store _, hrun', .inl ⟨hne', hs.store_self, hnot⟩⟩
      · rw [call_ok hcur hdel, hyield]
        refine ⟨_, rfl, ?_, hyield ▸ hpending, c, .yielded, hcur.store _, .inl rfl⟩
        exact clients_store hc hcur hother (fun _ => .inl (.inr rfl))
    · obtain rfl := hcur.routine_eq
      rw [call_ok hcur hdel]
      refine ⟨_, rfl, ?_, hpending, c, .ended, hcur.store _, .inr ⟨rfl, hun⟩⟩
      exact clients_store hc hcur hother (fun _ => .inr hun)

theorem sound_reap (hc : Clients sFd w none) (hp : Pending w evs)
    (hcur : Current w conn c.routine c pc) (hpc : pc = .yielded ∨ pc = .ended ∧ Unserved w conn) :
    ∃ s, (reap w conn).map (fun w => Server.mk w (.batch evs)) = .ok s ∧ Sound sFd s := by
  rcases hpc with rfl | ⟨rfl, hun⟩
  · rw [reap_waiting hcur (by simp)]
    exact ⟨_, rfl, hc, hp⟩
  · rw [reap_ended hcur]
    refine ⟨_, rfl, clients_bury hc hcur hun, ?_⟩
    exact pending_of_registration hp (fun _ _ => rfl)

/-- No step of a sound server is a fault, and the server stays sound. -/
theorem sound_step {a : Action} {r : Except Fault Server} (h : Server.Step sFd s a r)
    (hs : Sound sFd s) : ∃ s', r = .ok s' ∧ Sound sFd s' := by
  cases h with
  | failed => exact ⟨_, rfl, hs⟩
  | wait evs hlen hreg hnodup => exact ⟨_, rfl, hs, hnodup, hreg⟩
  | done => exact ⟨_, rfl, hs.1⟩
  | acceptable => exact ⟨_, rfl, hs.1, hs.2.tail⟩
  | dispatch hne => exact sound_dispatch hs.1 hs.2 hne
  | accept k hk =>
    obtain ⟨hc, hp⟩ := hs
    obtain ⟨⟨w', again⟩, hr, heff⟩ := handleAccept_effect (k := k)
    rw [hr]
    refine ⟨_, rfl, ?_⟩
    cases again with
    | true => exact ⟨clients_accept hk heff hc, pending_accept hk heff hp⟩
    | false => exact ⟨clients_accept hk heff hc, pending_accept hk heff hp⟩
  | call k hdelete =>
    obtain ⟨hc, hp, c, pc, hin⟩ := hs
    exact sound_call hc hp hin hdelete
  | reap =>
    obtain ⟨hc, hp, c, pc, hcur, hpc⟩ := hs
    exact sound_reap hc hp hcur hpc

theorem sound_initial (h : Server.Initial sFd s) : Sound sFd s := by
  obtain ⟨w, loop⟩ := s
  obtain ⟨rfl, -, -, hreg, -⟩ := h
  have hnone (fd p : ℕ) : w.fds.registration fd ≠ some (some p) := by
    rw [hreg]
    dsimp only
    split <;> simp
  refine ⟨fun fd hfd => ?_, fun fd p hfd => absurd hfd (hnone fd p), ?_⟩
  · rw [hreg] at hfd
    by_contra hne
    simp [hne] at hfd
  · rintro fd fd' c c' ⟨p, hp, -⟩
    exact absurd hp (hnone fd p)

theorem sound_reachable (h : (server sFd).Reachable s) : Sound sFd s := by
  apply System.reachable_invariant (fun _ => sound_initial) ?_ h
  intro s a s' hstep hs
  obtain ⟨t, ht, hsound⟩ := sound_step hstep hs
  cases ht
  exact hsound

theorem ne_ended_of_waiting (h : pc.Waiting) : pc ≠ .ended := by
  rcases h with rfl | rfl <;> simp

/-- The routine of a registration has not ended, whether it waits or is at work. -/
theorem Sound.served (h : Sound sFd s) (hreg : s.world.fds.registration fd = some (some p)) :
    ∃ c pc, Served s.world fd p c pc ∧ pc ≠ .ended := by
  have hidle (hc : Clients sFd s.world none) : ∃ c pc, Served s.world fd p c pc ∧ pc ≠ .ended := by
    obtain ⟨c, pc, hs, hw⟩ := hc.served fd p hreg
    exact ⟨c, pc, hs, ne_ended_of_waiting (hw (by simp))⟩
  obtain ⟨w, loop⟩ := s
  cases loop with
  | wait => exact hidle h
  | batch => exact hidle h.1
  | accepting => exact hidle h.1
  | resumed => exact hidle h.1
  | inside conn co evs =>
    obtain ⟨hc, -, c₀, pc₀, hin⟩ := h
    obtain ⟨c, pc, hs, hw⟩ := hc.served fd p hreg
    refine ⟨c, pc, hs, ?_⟩
    by_cases he : conn = p
    · subst he
      obtain rfl := hs.conn_eq hin.current.block
      have hpc := hs.routine.symm.trans (hin.current.routine_eq ▸ hin.current.routine)
      obtain rfl : pc = pc₀ := by simpa using hpc
      rintro rfl
      exact hin.running
    · exact ne_ended_of_waiting (hw (fun hb => he (Option.some_inj.mp hb)))

theorem Sound.listener (h : Sound sFd s) (hreg : s.world.fds.registration fd = some none) :
    fd = sFd := by
  obtain ⟨w, loop⟩ := s
  cases loop with
  | wait => exact h.listener fd hreg
  | batch => exact h.1.listener fd hreg
  | accepting => exact h.1.listener fd hreg
  | resumed => exact h.1.listener fd hreg
  | inside => exact h.1.listener fd hreg

/-- The loop is inside the routine of the client behind `fd`, which is about to call
`poll_delete`. -/
def Server.Deletes (s : Server) (fd : ℕ) : Prop :=
  ∃ conn co evs c, s.loop = .inside conn co evs ∧ s.world.conn conn = .ok c ∧ c.fd = fd ∧
    s.world.routine co = .ok (conn, .deleting)

/-- Nobody else takes a registration away. -/
theorem registration_step {a : Action} {r : Except Fault Server} {u : Option ℕ}
    (h : Server.Step sFd s a r) (hr : r = .ok s') (hs : Sound sFd s)
    (hreg : s.world.fds.registration fd = some u) :
    s'.world.fds.registration fd = some u ∨ s.Deletes fd := by
  cases h with
  | failed | wait | done | acceptable =>
    cases hr
    exact .inl hreg
  | @dispatch w x evs hne =>
    obtain ⟨n, u'⟩ := x
    cases u' with
    | none => cases hr
    | some p =>
      obtain ⟨c, pc, hserved, hw⟩ := hs.1.served n p (hs.2.registered _ List.mem_cons_self)
      rw [dispatch_ok hserved (hw (by simp))] at hr
      cases hr
      exact .inl hreg
  | @accept w evs k hk =>
    obtain ⟨⟨w', again⟩, haccept, heff⟩ := handleAccept_effect (w := w) (k := k)
    obtain ⟨f, hf⟩ := Descriptors.open_of_registered hreg
    rw [haccept] at hr
    cases hr
    left
    exact ((extends_accept hk heff).file fd f hf).2.trans hreg
  | @call w conn co evs k hdelete =>
    obtain ⟨hc, -, c, pc, hcur, -, hstage⟩ := hs
    by_cases hdel : pc = .deleting
    · subst hdel
      obtain ⟨-, hserved, -⟩ := hstage.resolve_right (by simp)
      rw [call_delete hcur hserved (hdelete c _ (conn_ok hcur.block) hserved.registered)] at hr
      cases hr
      by_cases hfd : c.fd = fd
      · exact .inr ⟨conn, co, evs, c, rfl, conn_ok hcur.block, hfd, routine_ok hcur.routine⟩
      · exact .inl ((release_registration (Ne.symm hfd)).trans hreg)
    · rw [call_ok hcur hdel] at hr
      cases hr
      exact .inl hreg
  | @reap w conn evs =>
    obtain ⟨-, -, c, pc, hcur, -⟩ := hs
    by_cases hend : pc = .ended
    · subst hend
      rw [reap_ended hcur] at hr
      cases hr
      exact .inl hreg
    · rw [reap_waiting hcur hend] at hr
      cases hr
      exact .inl hreg

/-- Every client registration leads to an allocated connection whose routine is allocated and has
not ended; no step dereferences a freed block, resumes a routine that has ended, frees a block
twice or closes a descriptor that is not open; and only the `poll_delete` of its own routine takes
a client's registration and with it its descriptor. -/
theorem connection_lifecycle (h : (server sFd).Reachable s) :
    (∀ fd u, fd ≠ sFd → s.world.fds.registration fd = some u → ∃ p c pc, u = some p ∧
      s.world.heap.block p = some (.conn (some c)) ∧ c.fd = fd ∧
      s.world.heap.block c.routine = some (.routine p pc) ∧ pc ≠ .ended) ∧
    (∀ a f, ¬ Server.Step sFd s a (.error f)) ∧
    ∀ a t fd u, (server sFd).Step s a t → s.world.fds.registration fd = some u →
      t.world.fds.registration fd = some u ∨ s.Deletes fd := by
  have hsound := sound_reachable h
  refine ⟨fun fd u hne hreg => ?_, fun a f hstep => ?_, fun a t fd u hstep hreg => ?_⟩
  · cases u with
    | none => exact absurd (hsound.listener hreg) hne
    | some p =>
      obtain ⟨c, pc, hs, hend⟩ := hsound.served hreg
      exact ⟨p, c, pc, rfl, hs.conn, hs.fd_eq, hs.routine, hend⟩
  · obtain ⟨s', hs', -⟩ := sound_step hstep hsound
    cases hs'
  · exact registration_step hstep rfl hsound hreg

/-- A client of the batch closes its connection, and the same batch accepts another one on the same
descriptor. -/
theorem connection_lifecycle_reusedFd :
    ∃ s : Server, (server 3).Reachable s ∧ s.world.heap.freed = [1, 2, 0] ∧
      s.world.fds.closed = [1] ∧ s.world.fds.registration 5 = some (some 6) ∧
      ∃ c pc, s.world.heap.block 6 = some (.conn (some c)) ∧
        s.world.heap.block c.routine = some (.routine 6 pc) ∧ pc ≠ .ended := by
  let eof : Answers := ⟨.bytes [] (Nat.zero_le _), .count 0 (Nat.zero_le _), none⟩
  have hr : ∃ s : Server, (server 3).Reachable s ∧ s.world.heap.freed = [1, 2, 0] ∧
      s.world.fds.closed = [1] ∧ s.world.fds.registration 5 = some (some 6) := by
    refine ⟨_, ⟨_, _, start_initial 3,
      .stepL (.wait [⟨3, none⟩] (by decide) (List.forall_mem_singleton.mpr rfl) (by decide)) <|
      .stepL (.acceptable rfl) <|
      .stepL (.accept (.plain (.ok (5, 2))) ?_) <|
      .stepL (.accept (.plain (.error EAGAIN)) ?_) <|
      .stepL .done <|
      .stepL (.wait [⟨5, some 1⟩, ⟨3, none⟩] (by decide)
        (List.forall_mem_cons.mpr ⟨rfl, List.forall_mem_singleton.mpr rfl⟩) (by decide)) <|
      .stepL (.dispatch (by decide)) <|
      .stepL (.call eof (fun _ _ _ _ => rfl)) <|
      .stepL (.call eof (fun _ _ _ _ => rfl)) <|
      .stepL (.call eof (fun _ _ _ _ => rfl)) <|
      .stepL .reap <|
      .stepL (.acceptable rfl) <|
      .stepL (.accept (.plain (.ok (5, 2))) ?_) .refl⟩, rfl, rfl, rfl⟩
    · rintro _ _ ⟨⟩
      rfl
    · rintro _ _ ⟨⟩
    · rintro _ _ ⟨⟩
      rfl
  obtain ⟨s, hs, hfreed, hclosed, hreg⟩ := hr
  obtain ⟨p, c, pc, hp, hconn, -, hroutine, hend⟩ :=
    (connection_lifecycle hs).1 5 (some 6) (by decide) hreg
  cases hp
  exact ⟨s, hs, hfreed, hclosed, hreg, c, pc, hconn, hroutine, hend⟩

end UnixCodes.AcoHttpd
