import UnixCodes.PollServer.Table

/-! Which clients `poll-server.c` reads, and what the last call of `poll` has said about them. -/
namespace UnixCodes.PollServer

open Posix Transition

variable {sfd : ℤ} {w w' : Watched} {a : Action} {k : ℕ}

/-- The slot above those in use into which the next connection would be accepted. -/
def Server.grows (s : Server) : Option PollFd :=
  match freeSlot s.clientPoll with
  | some i => if s.nfds ≤ i then some (s.clientPoll i) else none
  | none => none

/-- The server with the slots the last call of `poll` was given, as it returned them, the clients
read with what that call returned in their slot, and the slots that have been brought below `nfds`
as they were before. -/
structure Watched where
  server : Server
  polled : ℕ → Option PollFd
  reads : List (ℤ × Option PollFd)
  grown : List PollFd

namespace Watched

/-- The records after an action that leads to `t`. -/
def after (w : Watched) (a : Action) (t : Server) : Watched where
  server := t
  polled := match a with
    | .poll _ _ => fun i => if i < w.server.nfds then some (t.clientPoll i) else none
    | _ => w.polled
  reads := match a, w.server.loop with
    | .read _ _, .service i => w.reads ++ [((w.server.clientPoll i).fd, w.polled i)]
    | _, _ => w.reads
  grown := match a with
    | .accept (.ok _) => w.grown ++ w.server.grows.toList
    | _ => w.grown

/-- Every read was of a client that the last `poll` was given and reported. -/
def Reported (w : Watched) : Prop :=
  ∀ x ∈ w.reads, ∃ p, x.2 = some p ∧ p.fd = x.1 ∧ p.Readable

/-- No slot brought below `nfds` had an event left in it. -/
def Clean (w : Watched) : Prop := ∀ p ∈ w.grown, ¬ p.Readable

end Watched

/-- When `poll` succeeds it returns no events in a free slot. -/
def Action.Conforms (s : Server) : Action → Prop
  | .poll (.ok _) revents => ∀ i < s.nfds, (s.clientPoll i).fd = -1 → revents i = 0
  | _ => True

def watched (sfd : ℤ) : System Watched Action where
  Initial w := w.server.Initial sfd ∧ w.polled = (fun _ => none) ∧ w.reads = [] ∧ w.grown = []
  Step w a w' := Server.Step sfd w.server a w'.server ∧ a.Conforms w.server ∧
    w' = w.after a w'.server

/-- The records do not disturb the server. -/
theorem watched_server (h : (watched sfd).Reachable w) : (server sfd).Reachable w.server :=
  System.reachable_map (T := watched sfd) Watched.server (fun _ hi => hi.1)
    (fun _ _ _ hs => hs.1) h

/-- A client in slot `i` that the scan is still going to read. -/
structure Due (w : Watched) (k i : ℕ) : Prop where
  ahead : k ≤ i
  below : i < w.server.nfds
  used : (w.server.clientPoll i).fd ≠ -1
  readable : (w.server.clientPoll i).Readable

/-- Between `poll` and the scan the table is as `poll` has returned it. In the scan only a client
in a slot with leftover events is read without a report, and such a client is read. -/
def Foreseen (w : Watched) : Prop :=
  match w.server.loop with
  | .accept =>
    (∀ i, w.polled i = if i < w.server.nfds then some (w.server.clientPoll i) else none) ∧
      (∀ i < w.server.nfds, (w.server.clientPoll i).fd = -1 →
        ¬ (w.server.clientPoll i).Readable) ∧
      (w.Reported → w.Clean)
  | .service k =>
    (∀ i, Due w k i → w.polled i = some (w.server.clientPoll i) ∨ ¬ w.Clean) ∧
      (w.Reported → w.Clean ∨ ∃ i, Due w k i ∧ w.polled i = none)
  | _ => w.Reported → w.Clean

structure Accounted (w : Watched) : Prop where
  reported : w.Clean → w.Reported
  foreseen : Foreseen w

theorem foreseen_poll (hl : w.server.loop = .poll) (h : Foreseen w) : w.Reported → w.Clean := by
  unfold Foreseen at h
  rwa [hl] at h

theorem foreseen_accept (hl : w.server.loop = .accept) (h : Foreseen w) :
    (∀ i, w.polled i = if i < w.server.nfds then some (w.server.clientPoll i) else none) ∧
      (∀ i < w.server.nfds, (w.server.clientPoll i).fd = -1 →
        ¬ (w.server.clientPoll i).Readable) ∧
      (w.Reported → w.Clean) := by
  unfold Foreseen at h
  rwa [hl] at h

theorem foreseen_service (hl : w.server.loop = .service k) (h : Foreseen w) :
    (∀ i, Due w k i → w.polled i = some (w.server.clientPoll i) ∨ ¬ w.Clean) ∧
      (w.Reported → w.Clean ∨ ∃ i, Due w k i ∧ w.polled i = none) := by
  unfold Foreseen at h
  rwa [hl] at h

theorem not_readable_of_zero {p : PollFd} (h : p.revents = 0) : ¬ p.Readable := by
  simp [PollFd.Readable, h]

theorem accounted_poll {n : ℕ} {revents : ℕ → BitVec 16} (hl : w.server.loop = .poll)
    (hc : (Action.poll (.ok n) revents).Conforms w.server) (h : Accounted w) :
    Accounted (w.after (.poll (.ok n) revents)
      { w.server.reported revents with loop := if n = 0 then .poll else .accept }) := by
  have hclean := foreseen_poll hl h.foreseen
  refine ⟨h.reported, ?_⟩
  unfold Foreseen
  by_cases hn : n = 0
  · simp only [Watched.after, hn, if_true]
    exact hclean
  · simp only [Watched.after, hn, if_false]
    refine ⟨fun i => rfl, fun i hi hfd => ?_, hclean⟩
    have hi' : i < w.server.nfds := hi
    simp only [Server.reported, hi', if_true] at hfd ⊢
    exact not_readable_of_zero (hc i hi' hfd)

/-- Nothing new is below `nfds`: the scan starts over clients that have all been polled. -/
theorem accounted_within {cfd : ℤ} (hl : w.server.loop = .accept)
    (hgrows : w.server.grows = none)
    (hpolled : ∀ i, Due (w.after (.accept (.ok cfd))
      { (w.server.opened cfd).accepted cfd with loop := .service 1 }) 1 i →
        w.polled i = some (((w.server.opened cfd).accepted cfd).clientPoll i))
    (h : Accounted w) :
    Accounted (w.after (.accept (.ok cfd))
      { (w.server.opened cfd).accepted cfd with loop := .service 1 }) := by
  have hgrown : w.grown ++ w.server.grows.toList = w.grown := by simp [hgrows]
  have hclean := (foreseen_accept hl h.foreseen).2.2
  refine ⟨?_, fun i hdue => .inl (hpolled i hdue), ?_⟩
  · simpa only [Watched.after, Watched.Clean, Watched.Reported, hgrown] using h.reported
  · intro hr
    left
    simpa only [Watched.after, Watched.Clean, hgrown] using hclean hr

/-- A slot comes below `nfds` that has not been polled; it is due if an event was left in it. -/
theorem accounted_grown {cfd : ℤ} {i : ℕ} (ht : Tracked sfd w.server)
    (hl : w.server.loop = .accept) (hcfd : 0 ≤ cfd)
    (hi : freeSlot w.server.clientPoll = some i) (hge : w.server.nfds ≤ i) (h : Accounted w) :
    Accounted (w.after (.accept (.ok cfd))
      { (w.server.opened cfd).accepted cfd with loop := .service 1 }) := by
  obtain ⟨hpolled, -, hclean⟩ := foreseen_accept hl h.foreseen
  obtain ⟨hpos, -⟩ := freeSlot_eq_some hi
  obtain ⟨hle, -, -, hnfds, -, hpoll⟩ := accepted_some ht hi hcfd
  have hgrown : w.grown ++ w.server.grows.toList = w.grown ++ [w.server.clientPoll i] := by
    simp [Server.grows, hi, hge]
  refine ⟨?_, ?_⟩
  · intro hc
    apply h.reported
    intro p hp
    exact hc p (List.mem_append_left _ hp)
  · simp only [Foreseen, Watched.after, hgrown]
    refine ⟨fun j hdue => ?_, fun hr => ?_⟩
    · have hread := hdue.readable
      have hbelow : j < max w.server.nfds (i + 1) := hnfds ▸ hdue.below
      by_cases he : j = i
      · right
        intro hc
        simp only [he, hpoll, Function.update_self] at hread
        exact hc _ (List.mem_append_right _ (List.mem_singleton_self _)) hread
      · left
        simp only [hpoll, Function.update_of_ne he]
        exact (hpolled j).trans (if_pos (by omega))
    · by_cases hread : (w.server.clientPoll i).Readable
      · right
        refine ⟨i, ⟨hpos, ?_, ?_, ?_⟩, ?_⟩
        · simp only [hnfds]
          omega
        · simp only [hpoll, Function.update_self]
          omega
        · simp only [hpoll, Function.update_self]
          exact hread
        · exact (hpolled i).trans (if_neg (by omega))
      · left
        intro p hp
        rcases List.mem_append.mp hp with hp | hp
        · exact hclean hr p hp
        · obtain rfl := List.mem_singleton.mp hp
          exact hread

/-- The scan starts over a table in which only a slot with leftover events has not been polled. -/
theorem accounted_accept {cfd : ℤ} (ht : Tracked sfd w.server) (hl : w.server.loop = .accept)
    (hcfd : 0 ≤ cfd) (hfresh : cfd ∉ w.server.conns) (h : Accounted w) :
    Accounted (w.after (.accept (.ok cfd))
      { (w.server.opened cfd).accepted cfd with loop := .service 1 }) := by
  obtain ⟨hpolled, hfree, -⟩ := foreseen_accept hl h.foreseen
  cases hi : freeSlot w.server.clientPoll with
  | none =>
    apply accounted_within hl (by simp [Server.grows, hi]) ?_ h
    intro i hdue
    have hbelow := hdue.below
    simp only [Watched.after, accepted_none hi hfresh] at hbelow ⊢
    exact (hpolled i).trans (if_pos hbelow)
  | some i =>
    by_cases hlt : i < w.server.nfds
    · obtain ⟨-, -, hfd, -⟩ := freeSlot_eq_some hi
      obtain ⟨-, -, -, hnfds, -, hpoll⟩ := accepted_some ht hi hcfd
      apply accounted_within hl (by simp [Server.grows, hi, hlt]) ?_ h
      intro j hdue
      have hread := hdue.readable
      have hbelow : j < max w.server.nfds (i + 1) := hnfds ▸ hdue.below
      simp only [Watched.after, hpoll] at hread ⊢
      -- The slot was free when it was polled.
      have hne : j ≠ i := by
        rintro rfl
        rw [Function.update_self] at hread
        exact hfree j hlt hfd hread
      rw [Function.update_of_ne hne]
      exact (hpolled j).trans (if_pos (by omega))
    · exact accounted_grown ht hl hcfd hi (Nat.le_of_not_lt hlt) h

theorem served_of_ne {s : Server} {i j : ℕ} {r : ReadResult 256} {beyond : List UInt8}
    (h : j ≠ i) : (s.served i r beyond).clientPoll j = s.clientPoll j := by
  rcases served_cases s i r beyond with ⟨hpoll, -⟩ | ⟨hpoll, -⟩
  · rw [hpoll]
  · rw [hpoll, Function.update_of_ne h]

theorem nfds_served {s : Server} {i : ℕ} {r : ReadResult 256} {beyond : List UInt8} :
    (s.served i r beyond).nfds = s.nfds := by
  rcases served_cases s i r beyond with ⟨-, hnfds, -⟩ | ⟨-, hnfds, -⟩ <;> exact hnfds

/-- A client is read as the scan has foreseen. -/
theorem accounted_read {r : ReadResult 256} {beyond : List UInt8}
    (hl : w.server.loop = .service k) (hk : k < w.server.nfds)
    (hfd : (w.server.clientPoll k).fd ≠ -1) (hread : (w.server.clientPoll k).Readable)
    (h : Accounted w) :
    Accounted (w.after (.read r beyond)
      { w.server.served k r beyond with loop := .service (k + 1) }) := by
  obtain ⟨hdue, hpending⟩ := foreseen_service hl h.foreseen
  have hnow := hdue k ⟨le_rfl, hk, hfd, hread⟩
  generalize hu : w.after (.read r beyond)
      { w.server.served k r beyond with loop := .service (k + 1) } = u
  have hloop : u.server.loop = .service (k + 1) := by rw [← hu]; rfl
  have hnfds : u.server.nfds = w.server.nfds := by rw [← hu]; exact nfds_served
  have hsame {i : ℕ} (hi : i ≠ k) : u.server.clientPoll i = w.server.clientPoll i := by
    rw [← hu]
    exact served_of_ne hi
  have hpolled : u.polled = w.polled := by rw [← hu]; rfl
  have hclean : u.Clean ↔ w.Clean := by rw [← hu]; rfl
  have hreads : u.Reported ↔ w.Reported ∧
      ∃ p, w.polled k = some p ∧ p.fd = (w.server.clientPoll k).fd ∧ p.Readable := by
    have happend : u.reads = w.reads ++ [((w.server.clientPoll k).fd, w.polled k)] := by
      rw [← hu]
      simp only [Watched.after, hl]
    unfold Watched.Reported
    rw [happend, List.forall_mem_append, List.forall_mem_singleton]
  have hstill {i : ℕ} : Due u (k + 1) i ↔ Due w k i ∧ i ≠ k := by
    constructor
    · rintro ⟨hahead, hbelow, hused, hreadable⟩
      have hne : i ≠ k := by omega
      rw [hsame hne] at hused hreadable
      exact ⟨⟨by omega, hnfds ▸ hbelow, hused, hreadable⟩, hne⟩
    · rintro ⟨⟨hahead, hbelow, hused, hreadable⟩, hne⟩
      refine ⟨by omega, hnfds.symm ▸ hbelow, ?_, ?_⟩
      · rwa [hsame hne]
      · rwa [hsame hne]
  refine ⟨?_, ?_⟩
  · intro hc
    rw [hclean] at hc
    refine hreads.mpr ⟨h.reported hc, _, hnow.resolve_right (not_not_intro hc), rfl, hread⟩
  · unfold Foreseen
    rw [hloop]
    refine ⟨fun i hi => ?_, fun hr => ?_⟩
    · obtain ⟨hi, hne⟩ := hstill.mp hi
      rw [hpolled, hclean, hsame hne]
      exact hdue i hi
    · obtain ⟨hr, p, hp, -⟩ := hreads.mp hr
      rw [hclean]
      rcases hpending hr with hc | ⟨i, hi, hnone⟩
      · exact .inl hc
      · right
        refine ⟨i, hstill.mpr ⟨hi, ?_⟩, hpolled ▸ hnone⟩
        rintro rfl
        rw [hp] at hnone
        cases hnone

theorem accounted_step {t : Server} (ht : Tracked sfd w.server)
    (hs : Server.Step sfd w.server a t) (hc : a.Conforms w.server) (h : Accounted w) :
    Accounted (w.after a t) := by
  cases hs with
  | pollError hl e revents =>
    refine ⟨h.reported, ?_⟩
    have hclean := foreseen_poll hl h.foreseen
    by_cases he : e = EINTR
    · simp only [Foreseen, Watched.after, he, if_true]
      exact hclean
    · simp only [Foreseen, Watched.after, he, if_false]
      exact hclean
  | poll hl n revents => exact accounted_poll hl hc h
  | quiet hl hq =>
    obtain ⟨hpolled, -, hclean⟩ := foreseen_accept hl h.foreseen
    refine ⟨h.reported, fun i hdue => .inl ?_, fun hr => .inl (hclean hr)⟩
    exact (hpolled i).trans (if_pos hdue.below)
  | acceptError hl hr e => exact ⟨h.reported, (foreseen_accept hl h.foreseen).2.2⟩
  | accept hl hr cfd hcfd hlisten hfresh => exact accounted_accept ht hl hcfd hfresh h
  | @skip k hl hk hskip =>
    obtain ⟨hdue, hpending⟩ := foreseen_service hl h.foreseen
    refine ⟨h.reported, fun i hi => ?_, fun hr => ?_⟩
    · exact hdue i ⟨Nat.le_of_succ_le hi.ahead, hi.below, hi.used, hi.readable⟩
    · rcases hpending hr with hclean | ⟨i, hi, hnone⟩
      · exact .inl hclean
      · right
        have hne : k ≠ i := by
          rintro rfl
          exact hskip.elim hi.used (not_not_intro hi.readable)
        have hahead := hi.ahead
        exact ⟨i, ⟨by omega, hi.below, hi.used, hi.readable⟩, hnone⟩
  | read hl hi hfd hread r beyond => exact accounted_read hl hi hfd hread h
  | done hl hk =>
    obtain ⟨-, hpending⟩ := foreseen_service hl h.foreseen
    refine ⟨h.reported, fun hr => (hpending hr).resolve_right ?_⟩
    rintro ⟨i, hi, -⟩
    have hahead := hi.ahead
    have hbelow := hi.below
    omega

theorem accounted_reachable (h : (watched sfd).Reachable w) : Accounted w := by
  apply System.reachable_induction ?_ ?_ h
  · rintro w ⟨hi, -, hreads, hgrown⟩
    have hclean : w.Clean := by simp [Watched.Clean, hgrown]
    refine ⟨fun _ => by simp [Watched.Reported, hreads], ?_⟩
    unfold Foreseen
    rw [hi.loop]
    exact fun _ => hclean
  · rintro w a w' hr ⟨hs, hc, he⟩ hw
    obtain ⟨ht, -⟩ := tracked_reachable (watched_server hr)
    rw [he]
    exact accounted_step ht hs hc hw

/-- All reads are of clients that the last `poll` has reported as long as no slot that is brought
below `nfds` has an event left in it; the scan after such a slot reads a client too many. -/
theorem reported_iff_clean (h : (watched sfd).Reachable w) :
    (w.Clean → w.Reported) ∧
      ((∀ k, w.server.loop ≠ .service k) → (w.Reported ↔ w.Clean)) := by
  obtain ⟨hreported, hforeseen⟩ := accounted_reachable h
  refine ⟨hreported, fun hl => ⟨?_, hreported⟩⟩
  unfold Foreseen at hforeseen
  split at hforeseen
  · exact hforeseen.2.2
  · rename_i k hk
    exact absurd hk (hl k)
  · exact hforeseen

def Watched.start (sfd : ℤ) (events revents : ℕ → BitVec 16) : Watched :=
  ⟨.start sfd events revents, fun _ => none, [], []⟩

theorem watch {t : Server} (hs : Server.Step sfd w.server a t) (hc : a.Conforms w.server) :
    (watched sfd).Step w a (w.after a t) := ⟨hs, hc, rfl⟩

theorem conforms_of_used {n : ℕ} {revents : ℕ → BitVec 16} {s : Server}
    (h : ∀ i < s.nfds, (s.clientPoll i).fd ≠ -1) : (Action.poll (.ok n) revents).Conforms s :=
  fun i hi hfd => absurd hfd (h i hi)

/-- A client comes, waits for the next `poll` and is read. -/
theorem reported_iff_clean_oneClient :
    ∃ w : Watched, (watched 3).Reachable w ∧ w.reads = [(5, some ⟨5, POLLIN, POLLIN⟩)] ∧
      w.grown = [⟨-1, 0, 0⟩] ∧
      (w.Clean → w.Reported) ∧
      ((∀ k, w.server.loop ≠ .service k) → (w.Reported ↔ w.Clean)) := by
  have hr : ∃ w : Watched, (watched 3).Reachable w ∧
      w.reads = [(5, some ⟨5, POLLIN, POLLIN⟩)] ∧ w.grown = [⟨-1, 0, 0⟩] :=
    ⟨_, ⟨.start 3 (fun _ => 0) (fun _ => 0), _,
      ⟨start_initial 3 (fun _ => 0) (fun _ => 0), rfl, rfl, rfl⟩,
      .stepL (watch (.poll rfl 1 fun i => if i = 0 then POLLIN else 0)
        (conforms_of_used (by decide))) <|
      .stepL (watch (.accept rfl (by decide) 5 (by decide) (by decide) (by decide)) trivial) <|
      .stepL (watch (.skip rfl (by decide) (by decide)) trivial) <|
      .stepL (watch (.done rfl (by decide)) trivial) <|
      .stepL (watch (.poll rfl 1 fun i => if i = 1 then POLLIN else 0)
        (conforms_of_used (by decide))) <|
      .stepL (watch (.quiet rfl (by decide)) trivial) <|
      .stepL (watch (.read rfl (by decide) (by decide) (by decide) (.bytes [71] (by decide)) [])
        trivial) .refl⟩, rfl, rfl⟩
  obtain ⟨w, hw, hreads, hgrown⟩ := hr
  exact ⟨w, hw, hreads, hgrown, reported_iff_clean hw⟩

/-- With `POLLIN` left in slot 1 the first client is read as soon as it has come. -/
theorem leftover_read : ¬ ∀ w : Watched, (watched 3).Reachable w → w.Reported := by
  intro hall
  have hr : ∃ w : Watched, (watched 3).Reachable w ∧ w.reads = [(5, none)] :=
    ⟨_, ⟨.start 3 (fun _ => 0) (fun i => if i = 1 then POLLIN else 0), _,
      ⟨start_initial 3 (fun _ => 0) (fun i => if i = 1 then POLLIN else 0), rfl, rfl, rfl⟩,
      .stepL (watch (.poll rfl 1 fun i => if i = 0 then POLLIN else 0)
        (conforms_of_used (by decide))) <|
      .stepL (watch (.accept rfl (by decide) 5 (by decide) (by decide) (by decide)) trivial) <|
      .stepL (watch (.read rfl (by decide) (by decide) (by decide) (.bytes [71] (by decide)) [])
        trivial) .refl⟩, rfl⟩
  obtain ⟨w, hw, hreads⟩ := hr
  obtain ⟨p, hp, -⟩ := hall w hw (5, none) (by rw [hreads]; exact List.mem_singleton_self _)
  cases hp

end UnixCodes.PollServer
