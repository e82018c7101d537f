import Mathlib.Data.Finset.Range
import UnixCodes.PollServer.Reported

/-! Which of the clients that `poll` has reported are read in the iteration after it. -/
namespace UnixCodes.PollServer

open Posix Transition

variable {sfd cfd : ℤ} {i k : ℕ} {s t : Server} {a : Action} {r : ReadResult 256}
  {beyond : List UInt8}

/-- A client that the scan over the table would read. -/
structure Server.Ready (s : Server) (i : ℕ) : Prop where
  behind : 0 < i
  below : i < s.nfds
  used : (s.clientPoll i).fd ≠ -1
  readable : (s.clientPoll i).Readable

instance : Decidable (s.Ready i) :=
  decidable_of_iff (0 < i ∧ i < s.nfds ∧ (s.clientPoll i).fd ≠ -1 ∧ (s.clientPoll i).Readable)
    ⟨fun ⟨h₁, h₂, h₃, h₄⟩ => ⟨h₁, h₂, h₃, h₄⟩, fun ⟨h₁, h₂, h₃, h₄⟩ => ⟨h₁, h₂, h₃, h₄⟩⟩

/-- The server with the clients that the last call of `poll` has reported, the slots that have been
read since, and whether `accept` has failed since. -/
structure Iteration where
  server : Server
  ready : Finset ℕ
  reads : List ℕ
  refused : Bool

namespace Iteration

variable {w w' : Iteration}

/-- The records after an action that leads to `t`. -/
def after (w : Iteration) (a : Action) (t : Server) : Iteration where
  server := t
  ready := match a with
    | .poll (.ok n) _ => if n = 0 then ∅ else {i ∈ Finset.range t.nfds | t.Ready i}
    | .poll (.error _) _ => ∅
    | _ => w.ready
  reads := match a, w.server.loop with
    | .poll _ _, _ => []
    | .read _ _, .service i => w.reads ++ [i]
    | _, _ => w.reads
  refused := match a with
    | .poll _ _ => false
    | .accept (.error _) => true
    | _ => w.refused

/-- Each of the reported clients has been read once. -/
def Complete (w : Iteration) : Prop := ∀ i ∈ w.ready, w.reads.count i = 1

/-- The scan has come to slot `k`, and has read what is reported below it. -/
structure ServedBelow (w : Iteration) (k : ℕ) : Prop where
  admitted : w.refused = false
  ahead : ∀ i ∈ w.ready, k ≤ i → w.server.Ready i
  behind : ∀ i ∈ w.ready, i < k → w.reads.count i = 1
  reached : ∀ i ∈ w.reads, i < k

/-- How far the iteration has come. -/
def Progress (w : Iteration) : Prop :=
  match w.server.loop with
  | .accept => ServedBelow w 0
  | .service k => 0 < k ∧ ServedBelow w k
  | _ => (w.refused = false → w.Complete) ∧ (w.refused = true → w.reads = [])

end Iteration

def iterations (sfd : ℤ) : System Iteration Action where
  Initial w := w.server.Initial sfd ∧ w.ready = ∅ ∧ w.reads = [] ∧ w.refused = false
  Step w a w' := Server.Step sfd w.server a w'.server ∧ w' = w.after a w'.server

open Iteration

variable {w w' : Iteration}

theorem progress_accept (hl : w.server.loop = .accept) (h : Progress w) : ServedBelow w 0 := by
  unfold Progress at h
  rwa [hl] at h

theorem progress_service (hl : w.server.loop = .service k) (h : Progress w) :
    0 < k ∧ ServedBelow w k := by
  unfold Progress at h
  rwa [hl] at h

/-- A successful `poll` reports clients below `nfds`, and nothing has been read yet. -/
theorem progress_poll {n : ℕ} {revents : ℕ → BitVec 16} :
    Progress (w.after (.poll (.ok n) revents)
      { w.server.reported revents with loop := if n = 0 then .poll else .accept }) := by
  by_cases hn : n = 0
  · simp only [Progress, after, hn, if_true, Complete]
    exact ⟨fun _ => by simp, by simp⟩
  · simp only [Progress, after, hn, if_false]
    refine ⟨rfl, ?_, fun i _ hlt => absurd hlt (Nat.not_lt_zero i), by simp⟩
    intro i hi _
    exact (Finset.mem_filter.mp hi).2

theorem ready_loop (l : Loop) (h : s.Ready i) : Server.Ready { s with loop := l } i :=
  ⟨h.behind, h.below, h.used, h.readable⟩

theorem not_ready_zero : ¬ s.Ready 0 := fun h => lt_irrefl 0 h.behind

/-- A new connection goes to a slot that was not reported, so the reported ones stay. -/
theorem ready_accepted (ht : Tracked sfd s) (hcfd : 0 ≤ cfd) (hfresh : cfd ∉ s.conns)
    (h : s.Ready i) : ((s.opened cfd).accepted cfd).Ready i := by
  cases hi : freeSlot s.clientPoll with
  | none =>
    rw [accepted_none hi hfresh]
    exact h
  | some j =>
    obtain ⟨-, -, hfree, -⟩ := freeSlot_eq_some hi
    obtain ⟨-, -, -, hnfds, -, hpoll⟩ := accepted_some ht hi hcfd
    have hne : i ≠ j := by
      rintro rfl
      exact h.used hfree
    have hsame : ((s.opened cfd).accepted cfd).clientPoll i = s.clientPoll i := by
      rw [hpoll, Function.update_of_ne hne]
    have hbelow := h.below
    refine ⟨h.behind, by omega, ?_, ?_⟩
    · rw [hsame]
      exact h.used
    · rw [hsame]
      exact h.readable

theorem ready_served (hne : i ≠ k) (h : s.Ready i) : (s.served k r beyond).Ready i := by
  have hbelow : i < (s.served k r beyond).nfds := by
    rw [nfds_served]
    exact h.below
  refine ⟨h.behind, hbelow, ?_, ?_⟩
  · rw [served_of_ne hne]
    exact h.used
  · rw [served_of_ne hne]
    exact h.readable

/-- Slot `k` is read, or was not among the reported ones. -/
theorem servedBelow_succ (h : ServedBelow w k)
    (hready : ∀ i, i ≠ k → w.server.Ready i → w'.server.Ready i) (hreported : w'.ready = w.ready)
    (hrefused : w'.refused = w.refused)
    (hreads : w'.reads = w.reads ++ [k] ∨ w'.reads = w.reads ∧ k ∉ w.ready) :
    ServedBelow w' (k + 1) := by
  refine ⟨hrefused.trans h.admitted, ?_, ?_, ?_⟩
  · intro i hi hle
    rw [hreported] at hi
    exact hready i (by omega) (h.ahead i hi (by omega))
  · intro i hi hlt
    rw [hreported] at hi
    rcases hreads with hreads | ⟨hreads, hnot⟩
    · rw [hreads, List.count_append]
      by_cases he : i = k
      · subst he
        have hfirst : i ∉ w.reads := fun hmem => absurd (h.reached i hmem) (lt_irrefl i)
        simp [List.count_eq_zero_of_not_mem hfirst]
      · have hother : i ∉ [k] := by simpa using he
        rw [h.behind i hi (by omega), List.count_eq_zero_of_not_mem hother]
    · have hne : i ≠ k := by
        rintro rfl
        exact hnot hi
      rw [hreads]
      exact h.behind i hi (by omega)
  · intro i hi
    rcases hreads with hreads | ⟨hreads, -⟩
    · rw [hreads, List.mem_append, List.mem_singleton] at hi
      rcases hi with hi | rfl
      · have := h.reached i hi
        omega
      · omega
    · have := h.reached i (hreads ▸ hi)
      omega

/-- The scan starts behind the listening slot. -/
theorem servedBelow_scan (h : ServedBelow w 0)
    (hready : ∀ i, w.server.Ready i → w'.server.Ready i) (hreported : w'.ready = w.ready)
    (hrefused : w'.refused = w.refused) (hreads : w'.reads = w.reads) : ServedBelow w' 1 :=
  servedBelow_succ h (fun i _ => hready i) hreported hrefused
    (.inr ⟨hreads, fun hmem => not_ready_zero (h.ahead 0 hmem le_rfl)⟩)

theorem progress_step (ht : Tracked sfd w.server) (hs : Server.Step sfd w.server a t)
    (h : Progress w) : Progress (w.after a t) := by
  cases hs with
  | pollError hl e revents =>
    by_cases he : e = EINTR
    · simp only [Progress, after, he, if_true, Complete]
      exact ⟨fun _ => by simp, by simp⟩
    · simp only [Progress, after, he, if_false, Complete]
      exact ⟨fun _ => by simp, by simp⟩
  | poll hl n revents => exact progress_poll
  | quiet hl hq =>
    refine ⟨Nat.one_pos, servedBelow_scan (progress_accept hl h) ?_ rfl rfl rfl⟩
    intro i hi
    exact ready_loop _ hi
  | acceptError hl hr e =>
    have hnone : w.reads = [] := by
      apply List.eq_nil_iff_forall_not_mem.mpr
      intro i hi
      exact Nat.not_lt_zero i ((progress_accept hl h).reached i hi)
    exact ⟨fun hadmitted => (Bool.noConfusion hadmitted), fun _ => hnone⟩
  | accept hl hr cfd hcfd hlisten hfresh =>
    refine ⟨Nat.one_pos, servedBelow_scan (progress_accept hl h) ?_ rfl rfl rfl⟩
    intro i hi
    exact ready_loop _ (ready_accepted ht hcfd hfresh hi)
  | @skip k hl hk hskip =>
    obtain ⟨hpos, hbelow⟩ := progress_service hl h
    have hnot : k ∉ w.ready := by
      intro hmem
      obtain ⟨-, -, hused, hreadable⟩ := hbelow.ahead k hmem le_rfl
      exact hskip.elim hused (not_not_intro hreadable)
    exact ⟨Nat.succ_pos k, servedBelow_succ hbelow (fun i _ hi => ready_loop _ hi) rfl rfl
      (.inr ⟨rfl, hnot⟩)⟩
  | @read k hl hk hfd hread r beyond =>
    obtain ⟨hpos, hbelow⟩ := progress_service hl h
    refine ⟨Nat.succ_pos k, servedBelow_succ hbelow ?_ rfl rfl (.inl ?_)⟩
    · intro i hne hi
      exact ready_loop _ (ready_served hne hi)
    · simp only [after, hl]
  | @done k hl hk =>
    obtain ⟨-, hbelow⟩ := progress_service hl h
    refine ⟨fun _ i hi => ?_, ?_⟩
    · apply hbelow.behind i hi
      by_contra hge
      have := (hbelow.ahead i hi (by omega)).below
      omega
    · intro hrefused
      have hfalse : w.refused = true := hrefused
      rw [hbelow.admitted] at hfalse
      cases hfalse

/-- The records do not disturb the server. -/
theorem iterations_server (h : (iterations sfd).Reachable w) : (server sfd).Reachable w.server :=
  System.reachable_map (T := iterations sfd) Iteration.server (fun _ hi => hi.1)
    (fun _ _ _ hs => hs.1) h

theorem progress_reachable (h : (iterations sfd).Reachable w) : Progress w := by
  apply System.reachable_induction ?_ ?_ h
  · rintro w ⟨hi, hready, hreads, -⟩
    unfold Progress
    rw [hi.loop]
    exact ⟨fun _ => by simp [Complete, hready], fun _ => hreads⟩
  · rintro w a w' hr ⟨hs, he⟩ hw
    obtain ⟨ht, -⟩ := tracked_reachable (iterations_server hr)
    rw [he]
    exact progress_step ht hs hw

/-- An iteration reads every client that its call of `poll` has reported, and each of them once,
unless `accept` fails in it: then it reads none of them. -/
theorem complete_iff_not_refused (h : (iterations sfd).Reachable w) (hl : w.server.loop = .poll) :
    (∀ i ∈ w.ready, w.reads.count i = 1) ↔ w.refused = false ∨ w.ready = ∅ := by
  have hprogress := progress_reachable h
  unfold Progress at hprogress
  rw [hl] at hprogress
  obtain ⟨hadmitted, hrefused⟩ := hprogress
  constructor
  · intro hcomplete
    rcases Bool.eq_false_or_eq_true w.refused with hfail | hok
    · right
      apply Finset.eq_empty_of_forall_notMem
      intro i hi
      have hone := hcomplete i hi
      rw [hrefused hfail, List.count_nil] at hone
      omega
    · exact .inl hok
  · rintro (hok | hnone)
    · exact hadmitted hok
    · simp [hnone]

theorem record {t : Server} (hs : Server.Step sfd w.server a t) :
    (iterations sfd).Step w a (w.after a t) := ⟨hs, rfl⟩

def Iteration.start (sfd : ℤ) (events revents : ℕ → BitVec 16) : Iteration :=
  ⟨.start sfd events revents, ∅, [], false⟩

/-- A client that has come is reported together with the listening socket, and `accept` succeeds
again. -/
theorem complete_iff_not_refused_twoClients :
    ∃ w : Iteration, (iterations 3).Reachable w ∧ w.ready = {1} ∧ w.reads = [1] ∧
      w.server.conns = {5, 6} ∧
      ((∀ i ∈ w.ready, w.reads.count i = 1) ↔ w.refused = false ∨ w.ready = ∅) := by
  have hr : ∃ w : Iteration, (iterations 3).Reachable w ∧ w.server.loop = .poll ∧
      w.ready = {1} ∧ w.reads = [1] ∧ w.server.conns = {5, 6} :=
    ⟨_, ⟨.start 3 (fun _ => 0) (fun _ => 0), _,
      ⟨start_initial 3 (fun _ => 0) (fun _ => 0), rfl, rfl, rfl⟩,
      .stepL (record (.poll rfl 1 fun i => if i = 0 then POLLIN else 0)) <|
      .stepL (record (.accept rfl (by decide) 5 (by decide) (by decide) (by decide))) <|
      .stepL (record (.skip rfl (by decide) (by decide))) <|
      .stepL (record (.done rfl (by decide))) <|
      .stepL (record (.poll rfl 2 fun _ => POLLIN)) <|
      .stepL (record (.accept rfl (by decide) 6 (by decide) (by decide) (by decide))) <|
      .stepL (record (.read rfl (by decide) (by decide) (by decide) (.bytes [71] (by decide))
        [])) <|
      .stepL (record (.skip rfl (by decide) (by decide))) <|
      .stepL (record (.done rfl (by decide))) .refl⟩, rfl, rfl, rfl, by decide⟩
  obtain ⟨w, hw, hl, hready, hreads, hconns⟩ := hr
  exact ⟨w, hw, hready, hreads, hconns, complete_iff_not_refused hw hl⟩

/-- A client waits to be read, and the process has no descriptor left for the next one. -/
theorem refused_starves :
    ¬ ∀ w : Iteration, (iterations 3).Reachable w → w.server.loop = .poll → w.Complete := by
  intro hall
  have hr : ∃ w : Iteration, (iterations 3).Reachable w ∧ w.server.loop = .poll ∧
      w.ready = {1} ∧ w.reads = [] :=
    ⟨_, ⟨.start 3 (fun _ => 0) (fun _ => 0), _,
      ⟨start_initial 3 (fun _ => 0) (fun _ => 0), rfl, rfl, rfl⟩,
      .stepL (record (.poll rfl 1 fun i => if i = 0 then POLLIN else 0)) <|
      .stepL (record (.accept rfl (by decide) 5 (by decide) (by decide) (by decide))) <|
      .stepL (record (.skip rfl (by decide) (by decide))) <|
      .stepL (record (.done rfl (by decide))) <|
      .stepL (record (.poll rfl 2 fun _ => POLLIN)) <|
      .stepL (record (.acceptError rfl (by decide) EMFILE)) .refl⟩, rfl, by decide, rfl⟩
  obtain ⟨w, hw, hl, hready, hreads⟩ := hr
  have hone := hall w hw hl 1 (by rw [hready]; exact Finset.mem_singleton_self 1)
  rw [hreads, List.count_nil] at hone
  omega

end UnixCodes.PollServer
