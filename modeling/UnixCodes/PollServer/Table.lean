import UnixCodes.Lib.Slots
import UnixCodes.PollServer.Model

/-! The slots of `poll-server.c` and its open connections. -/
namespace UnixCodes.PollServer

open Posix Transition

variable {sfd cfd : ℤ} {i j : ℕ} {s t : Server} {a : Action} {r : ReadResult 256}
  {beyond : List UInt8} {revents : ℕ → BitVec 16}

/-- The clients that the next `poll` is given. -/
def Server.slots (s : Server) (i : ℕ) : Option ℤ :=
  if 0 < i ∧ i < s.nfds ∧ (s.clientPoll i).fd ≠ -1 then some (s.clientPoll i).fd else none

structure Tracked (sfd : ℤ) (s : Server) : Prop where
  listener : (s.clientPoll 0).fd = sfd
  one_le : 1 ≤ s.nfds
  le_size : s.nfds ≤ PollSize
  unused : ∀ i, s.nfds ≤ i → i < PollSize → (s.clientPoll i).fd = -1
  places : Places s.slots s.conns
  events : ∀ i, 0 < i → i < s.nfds → (s.clientPoll i).fd ≠ -1 → (s.clientPoll i).events = POLLIN
  valid : ∀ c ∈ s.conns, c ≠ -1

theorem slots_eq_some {c : ℤ} :
    s.slots i = some c ↔
      0 < i ∧ i < s.nfds ∧ (s.clientPoll i).fd ≠ -1 ∧ (s.clientPoll i).fd = c := by
  unfold Server.slots
  split
  · rename_i h
    simp [h]
  · rename_i h
    simp only [reduceCtorEq, false_iff]
    rintro ⟨hi, hlt, hfd, -⟩
    exact h ⟨hi, hlt, hfd⟩

theorem freeSlot_eq_some {clientPoll : ℕ → PollFd} (h : freeSlot clientPoll = some i) :
    0 < i ∧ i < PollSize ∧ (clientPoll i).fd = -1 ∧
      ∀ j, 0 < j → j < i → (clientPoll j).fd ≠ -1 := by
  obtain ⟨hfree, hmem, hused⟩ := List.find?_range'_eq_some.mp h
  rw [List.mem_range'_1] at hmem
  refine ⟨by omega, by unfold PollSize at *; omega, by simpa using hfree, ?_⟩
  intro j hj hlt
  simpa using hused j hj hlt

theorem freeSlot_eq_none {clientPoll : ℕ → PollFd} :
    freeSlot clientPoll = none ↔ ∀ i, 0 < i → i < PollSize → (clientPoll i).fd ≠ -1 := by
  unfold freeSlot
  rw [List.find?_eq_none]
  constructor
  · intro h i hi hlt
    have hmem : i ∈ List.range' 1 (PollSize - 1) := by
      rw [List.mem_range'_1]
      omega
    simpa using h i hmem
  · intro h i hmem
    rw [List.mem_range'_1] at hmem
    simpa using h i (by omega) (by omega)

/-- Contents of slots that no step looks at may change. -/
theorem tracked_congr (h : Tracked sfd s)
    (hfd : ∀ i, (t.clientPoll i).fd = (s.clientPoll i).fd)
    (hevents : ∀ i, (t.clientPoll i).events = (s.clientPoll i).events)
    (hnfds : t.nfds = s.nfds) (hconns : t.conns = s.conns) : Tracked sfd t := by
  have hslots : t.slots = s.slots := by
    funext i
    unfold Server.slots
    rw [hfd, hnfds]
  have hone := h.one_le
  have hsize := h.le_size
  refine ⟨?_, by omega, by omega, ?_, ?_, ?_, ?_⟩
  · rw [hfd]
    exact h.listener
  · intro i hi hlt
    rw [hfd]
    exact h.unused i (hnfds ▸ hi) hlt
  · rw [hslots, hconns]
    exact h.places
  · intro i hi hlt hne
    rw [hevents]
    exact h.events i hi (hnfds ▸ hlt) (hfd i ▸ hne)
  · rw [hconns]
    exact h.valid

theorem tracked_reported (h : Tracked sfd s) : Tracked sfd (s.reported revents) := by
  refine tracked_congr (t := s.reported revents) h ?_ ?_ rfl rfl
  · intro i
    dsimp only [Server.reported]
    split <;> rfl
  · intro i
    dsimp only [Server.reported]
    split <;> rfl

/-- The free slot `i` goes to the connection `cfd`; it is at most the first one that was not
polled. -/
structure Seats (s t : Server) (i : ℕ) (cfd : ℤ) : Prop where
  le : i ≤ s.nfds
  vacant : s.slots i = none
  slots : t.slots = Function.update s.slots i (some cfd)
  nfds : t.nfds = max s.nfds (i + 1)
  conns : t.conns = insert cfd s.conns
  clientPoll : t.clientPoll =
    Function.update s.clientPoll i { s.clientPoll i with fd := cfd, events := POLLIN }

theorem accepted_some (h : Tracked sfd s) (hi : freeSlot s.clientPoll = some i) (hcfd : 0 ≤ cfd) :
    Seats s ((s.opened cfd).accepted cfd) i cfd := by
  obtain ⟨hpos, hlt, hfree, hused⟩ := freeSlot_eq_some hi
  have hle : i ≤ s.nfds := by
    by_contra hgt
    exact hused s.nfds h.one_le (by omega) (h.unused s.nfds le_rfl (by omega))
  have hslot : freeSlot (s.opened cfd).clientPoll = some i := hi
  have hnfds : ((s.opened cfd).accepted cfd).nfds = max s.nfds (i + 1) := by
    unfold Server.accepted
    rw [hslot]
    change (if s.nfds ≤ i then i + 1 else s.nfds) = _
    split <;> omega
  have hpoll : ((s.opened cfd).accepted cfd).clientPoll = Function.update s.clientPoll i
      { s.clientPoll i with fd := cfd, events := POLLIN } := by
    unfold Server.accepted
    rw [hslot]
    rfl
  refine ⟨hle, ?_, ?_, hnfds, ?_, hpoll⟩
  · simp [Server.slots, hfree]
  · funext j
    unfold Server.slots
    rw [hnfds, hpoll]
    by_cases he : j = i
    · subst he
      rw [Function.update_self, Function.update_self, if_pos]
      exact ⟨hpos, by omega, by dsimp only; omega⟩
    · rw [Function.update_of_ne he, Function.update_of_ne he]
      have hrange : j < max s.nfds (i + 1) ↔ j < s.nfds := by omega
      simp only [hrange]
  · unfold Server.accepted
    rw [hslot]
    rfl

/-- With every slot in use the new connection is closed again. -/
theorem accepted_none (hi : freeSlot s.clientPoll = none) (hfresh : cfd ∉ s.conns) :
    (s.opened cfd).accepted cfd = s := by
  simp only [Server.accepted, Server.opened, hi, Finset.erase_insert hfresh]

theorem tracked_accepted (h : Tracked sfd s) (hcfd : 0 ≤ cfd) (hfresh : cfd ∉ s.conns) :
    Tracked sfd ((s.opened cfd).accepted cfd) := by
  cases hi : freeSlot s.clientPoll with
  | none =>
    rw [accepted_none hi hfresh]
    exact h
  | some i =>
    obtain ⟨hpos, hlt, hfree, -⟩ := freeSlot_eq_some hi
    obtain ⟨hle, hslot, hslots, hnfds, hconns, hpoll⟩ := accepted_some h hi hcfd
    have hsize := h.le_size
    refine ⟨?_, by omega, by omega, ?_, ?_, ?_, ?_⟩
    · rw [hpoll, Function.update_of_ne hpos.ne]
      exact h.listener
    · intro j hj hj'
      rw [hpoll, Function.update_of_ne (by omega)]
      exact h.unused j (by omega) hj'
    · rw [hslots, hconns]
      exact h.places.occupy hslot hfresh
    · intro j hj hj' hne
      rw [hpoll] at hne ⊢
      by_cases he : j = i
      · subst he
        rw [Function.update_self]
      · rw [Function.update_of_ne he] at hne ⊢
        exact h.events j hj (by omega) hne
    · intro c hc
      rw [hconns] at hc
      rcases Finset.mem_insert.mp hc with rfl | hc
      · omega
      · exact h.valid c hc

/-- A read leaves the table as it is, or takes the client out of its slot. -/
theorem served_cases (s : Server) (i : ℕ) (r : ReadResult 256) (beyond : List UInt8) :
    (s.served i r beyond).clientPoll = s.clientPoll ∧ (s.served i r beyond).nfds = s.nfds ∧
        (s.served i r beyond).conns = s.conns ∨
      (s.served i r beyond).clientPoll =
          Function.update s.clientPoll i { s.clientPoll i with fd := -1 } ∧
        (s.served i r beyond).nfds = s.nfds ∧
        (s.served i r beyond).conns = s.conns.erase (s.clientPoll i).fd := by
  rcases r with e | ⟨_ | ⟨b, bs⟩, hle⟩
  · exact .inr ⟨rfl, rfl, rfl⟩
  · exact .inr ⟨rfl, rfl, rfl⟩
  · exact .inl ⟨rfl, rfl, rfl⟩

theorem tracked_served (h : Tracked sfd s) (hpos : 0 < i) (hi : i < s.nfds)
    (hfd : (s.clientPoll i).fd ≠ -1) : Tracked sfd (s.served i r beyond) := by
  rcases served_cases s i r beyond with
    ⟨hpoll, hnfds, hconns⟩ | ⟨hpoll, hnfds, hconns⟩
  · exact tracked_congr h (fun i => by rw [hpoll]) (fun i => by rw [hpoll]) hnfds hconns
  · have hslot : s.slots i = some (s.clientPoll i).fd := slots_eq_some.mpr ⟨hpos, hi, hfd, rfl⟩
    have hslots : (s.served i r beyond).slots = Function.update s.slots i none := by
      funext j
      unfold Server.slots
      rw [hpoll, hnfds]
      by_cases he : j = i
      · subst he
        rw [Function.update_self, Function.update_self]
        simp
      · rw [Function.update_of_ne he, Function.update_of_ne he]
    have hone := h.one_le
    have hsize := h.le_size
    refine ⟨?_, by omega, by omega, ?_, ?_, ?_, ?_⟩
    · rw [hpoll, Function.update_of_ne hpos.ne]
      exact h.listener
    · intro j hj hlt
      rw [hpoll, Function.update_of_ne (by omega)]
      exact h.unused j (by omega) hlt
    · rw [hslots, hconns]
      exact h.places.release hslot
    · intro j hj hlt hne
      rw [hpoll] at hne ⊢
      by_cases he : j = i
      · subst he
        rw [Function.update_self] at hne
        exact absurd rfl hne
      · rw [Function.update_of_ne he] at hne ⊢
        exact h.events j hj (by omega) hne
    · intro c hc
      rw [hconns] at hc
      exact h.valid c (Finset.mem_of_mem_erase hc)

/-- The scan over the clients starts behind the listening slot. -/
def Loop.Behind : Loop → Prop
  | .service i => 0 < i
  | _ => True

theorem tracked_loop (h : Tracked sfd s) (l : Loop) : Tracked sfd { s with loop := l } :=
  tracked_congr (t := { s with loop := l }) h (fun _ => rfl) (fun _ => rfl) rfl rfl

theorem tracked_step (hs : Server.Step sfd s a t) (h : Tracked sfd s) (hb : s.loop.Behind) :
    Tracked sfd t ∧ t.loop.Behind := by
  cases hs with
  | pollError hl e revents =>
    refine ⟨tracked_loop (tracked_reported h) _, ?_⟩
    dsimp only
    split <;> trivial
  | poll hl n revents =>
    refine ⟨tracked_loop (tracked_reported h) _, ?_⟩
    dsimp only
    split <;> trivial
  | quiet hl hq => exact ⟨tracked_loop h _, Nat.one_pos⟩
  | acceptError hl hr e => exact ⟨tracked_loop h _, trivial⟩
  | accept hl hr cfd hcfd hlisten hfresh =>
    exact ⟨tracked_loop (tracked_accepted h hcfd hfresh) _, Nat.one_pos⟩
  | skip hl hi hskip => exact ⟨tracked_loop h _, Nat.succ_pos _⟩
  | read hl hi hfd hread r beyond =>
    rw [hl] at hb
    exact ⟨tracked_loop (tracked_served h hb hi hfd) _, Nat.succ_pos _⟩
  | done hl hi => exact ⟨tracked_loop h _, trivial⟩

theorem tracked_initial (h : Server.Initial sfd s) : Tracked sfd s := by
  have hslots : s.slots = fun _ => none := by
    funext i
    unfold Server.slots
    rw [h.nfds, if_neg (by omega)]
  refine ⟨h.listener.1, h.nfds.ge, ?_, ?_, ?_, ?_, ?_⟩
  · rw [h.nfds]
    decide
  · intro i hi
    exact h.free i (by have := h.nfds; omega)
  · rw [hslots, h.conns]
    exact .empty
  · intro i hi hlt
    have := h.nfds
    omega
  · rw [h.conns]
    simp

theorem tracked_reachable (h : (server sfd).Reachable s) : Tracked sfd s ∧ s.loop.Behind := by
  apply System.reachable_invariant ?_ ?_ h
  · intro s hi
    refine ⟨tracked_initial hi, ?_⟩
    rw [hi.loop]
    trivial
  · intro s a t hs ⟨htracked, hb⟩
    exact tracked_step hs htracked hb

/-- Each open connection is in one of the slots that the next `poll` is given, these slots hold
nothing else, and a new connection is in one of them too or, if it finds no slot, is closed. -/
structure SlotTable (sfd : ℤ) (s : Server) : Prop where
  listener : (s.clientPoll 0).fd = sfd
  nfds : 1 ≤ s.nfds ∧ s.nfds ≤ 1024
  unused : ∀ i, s.nfds ≤ i → i < 1024 → (s.clientPoll i).fd = -1
  placed : ∀ c ∈ s.conns, ∃! i, 0 < i ∧ i < s.nfds ∧ (s.clientPoll i).fd = c
  client : ∀ i, 0 < i → i < s.nfds → (s.clientPoll i).fd ≠ -1 →
    (s.clientPoll i).fd ∈ s.conns ∧ (s.clientPoll i).events = POLLIN
  seated : ∀ cfd t, Server.Step sfd s (.accept (.ok cfd)) t →
    (∃ i, 0 < i ∧ i < 1024 ∧ (s.clientPoll i).fd = -1) →
    t.conns = insert cfd s.conns ∧ ∃! i, 0 < i ∧ i < t.nfds ∧ (t.clientPoll i).fd = cfd
  full : ∀ cfd t, Server.Step sfd s (.accept (.ok cfd)) t →
    (∀ i, 0 < i → i < 1024 → (s.clientPoll i).fd ≠ -1) →
    t.clientPoll = s.clientPoll ∧ t.nfds = s.nfds ∧ t.conns = s.conns

theorem Tracked.placed {c : ℤ} (h : Tracked sfd s) (hc : c ∈ s.conns) :
    ∃! i, 0 < i ∧ i < s.nfds ∧ (s.clientPoll i).fd = c := by
  obtain ⟨i, hi, honly⟩ := h.places.unique_slot hc
  obtain ⟨hpos, hlt, -, hfd⟩ := slots_eq_some.mp hi
  refine ⟨i, ⟨hpos, hlt, hfd⟩, ?_⟩
  rintro j ⟨hj, hj', rfl⟩
  exact honly j (slots_eq_some.mpr ⟨hj, hj', h.valid _ hc, rfl⟩)

theorem slot_table (h : (server sfd).Reachable s) : SlotTable sfd s := by
  obtain ⟨ht, -⟩ := tracked_reachable h
  refine ⟨ht.listener, ⟨ht.one_le, ht.le_size⟩, ht.unused, fun c hc => ht.placed hc, ?_, ?_, ?_⟩
  · intro i hpos hlt hfd
    refine ⟨?_, ht.events i hpos hlt hfd⟩
    exact (ht.places.holds _).mpr ⟨i, slots_eq_some.mpr ⟨hpos, hlt, hfd, rfl⟩⟩
  · rintro cfd t hs ⟨i, hpos, hlt, hfree⟩
    have hconns : t.conns = insert cfd s.conns := by
      cases hs with
      | accept hl hr cfd hcfd hlisten hfresh =>
        cases hslot : freeSlot s.clientPoll with
        | none => exact absurd hfree (freeSlot_eq_none.mp hslot i hpos hlt)
        | some j => exact (accepted_some ht hslot hcfd).conns
    have htracked := (tracked_reachable (System.Reachable.step h hs)).1
    exact ⟨hconns, htracked.placed (hconns ▸ Finset.mem_insert_self ..)⟩
  · intro cfd t hs hfull
    cases hs with
    | accept hl hr cfd hcfd hlisten hfresh =>
      have hnone := freeSlot_eq_none.mpr hfull
      dsimp only
      rw [accepted_none hnone hfresh]
      exact ⟨rfl, rfl, rfl⟩

/-- The state after a client has come. -/
theorem slot_table_connected :
    ∃ s : Server, (server 3).Reachable s ∧ s.conns = {5} ∧ s.nfds = 2 ∧ (s.clientPoll 1).fd = 5 ∧
      SlotTable 3 s := by
  have hr : ∃ s : Server, (server 3).Reachable s ∧ s.conns = {5} ∧ s.nfds = 2 ∧
      (s.clientPoll 1).fd = 5 :=
    ⟨_, ⟨_, _, start_initial 3 (fun _ => 0) (fun _ => 0),
      .stepL (.poll rfl 1 fun i => if i = 0 then POLLIN else 0) <|
      .stepL (.accept rfl (by decide) 5 (by decide) (by decide) (by decide)) .refl⟩,
      rfl, rfl, rfl⟩
  obtain ⟨s, hs, hconns, hnfds, hfd⟩ := hr
  exact ⟨s, hs, hconns, hnfds, hfd, slot_table hs⟩

end UnixCodes.PollServer
