import Mathlib.Order.Bounds.Basic
import UnixCodes.SelectServer.Bookkeeping

/-! Whether `maxfd` is one more than the largest descriptor of the cache. -/
namespace UnixCodes.SelectServer

open Posix Transition

variable {sfd i : ℕ} {s t : Server} {a : Action} {r : ReadResult 256}

/-- `maxfd` is one more than the largest tracked descriptor. -/
def Tight (s : Server) : Prop :=
  ∃ n, IsGreatest {m | m ∈ s.readfdCache.bits} n ∧ s.maxfd = n + 1

/-- The read after which the client is closed. -/
def Leaves : ReadResult 256 → Prop
  | .error _ | .bytes [] _ => True
  | .bytes (_ :: _) _ => False

/-- A client that leaves is not the one with the largest descriptor. -/
def KeepsLargest (s : Server) (a : Action) : Prop :=
  match a, s.loop with
  | .read r, .scan i => Leaves r → i ≠ s.maxfd - 1
  | _, _ => True

theorem tight_congr (h : Tight s) (hcache : t.readfdCache = s.readfdCache)
    (hmaxfd : t.maxfd = s.maxfd) : Tight t := by
  unfold Tight
  rw [hcache, hmaxfd]
  exact h

/-- The new connection is the largest descriptor, or lies below it. -/
theorem tight_accepted {cfd : ℕ} (h : Tight s) (ht : s.accepted cfd = .ok t) : Tight t := by
  obtain ⟨n, ⟨hn, hmax⟩, hmaxfd⟩ := h
  by_cases hsize : cfd < FD_SETSIZE
  · obtain ⟨cache, hbits, hok⟩ := accepted_eq s hsize
    rw [hok] at ht
    cases ht
    refine ⟨max n cfd, ⟨?_, ?_⟩, ?_⟩
    · change max n cfd ∈ cache.bits
      rw [hbits]
      rcases max_choice n cfd with hmax | hmax
      · rw [hmax]
        exact Finset.mem_insert_of_mem hn
      · rw [hmax]
        exact Finset.mem_insert_self ..
    · intro m hm
      change m ∈ cache.bits at hm
      rw [hbits] at hm
      rcases Finset.mem_insert.mp hm with rfl | hm
      · exact le_max_right ..
      · exact le_max_of_le_left (hmax hm)
    · change max s.maxfd (cfd + 1) = max n cfd + 1
      omega
  · simp only [Server.accepted, FdSet.set, hsize, dif_neg, not_false_eq_true] at ht
    cases ht

/-- What a client that leaves does to the table. -/
theorem leaves_cache (h : Kept sfd s) (hi : i ∈ s.clients) (hr : Leaves r) :
    (s.served sfd i r).readfdCache = s.readfdCache.clr i ∧ (s.served sfd i r).maxfd = s.maxfd := by
  rcases r with e | ⟨_ | ⟨b, bs⟩, hle⟩
  · exact ⟨rfl, newMaxfd_stays h hi⟩
  · exact ⟨rfl, newMaxfd_stays h hi⟩
  · exact hr.elim

theorem stays_cache (sfd i : ℕ) (s : Server) (hr : ¬ Leaves r) :
    (s.served sfd i r).readfdCache = s.readfdCache ∧ (s.served sfd i r).maxfd = s.maxfd := by
  rcases r with e | ⟨_ | ⟨b, bs⟩, hle⟩
  · exact absurd trivial hr
  · exact absurd trivial hr
  · exact ⟨rfl, rfl⟩

theorem tight_clr (h : Tight s) (hne : i ≠ s.maxfd - 1)
    (hcache : t.readfdCache = s.readfdCache.clr i) (hmaxfd : t.maxfd = s.maxfd) : Tight t := by
  obtain ⟨n, ⟨hn, hmax⟩, hn'⟩ := h
  refine ⟨n, ⟨?_, ?_⟩, hmaxfd.trans hn'⟩
  · rw [hcache]
    exact Finset.mem_erase.mpr ⟨by omega, hn⟩
  · intro m hm
    rw [hcache] at hm
    exact hmax (Finset.mem_of_mem_erase hm)

theorem not_tight_clr (he : i = s.maxfd - 1) (hcache : t.readfdCache = s.readfdCache.clr i)
    (hmaxfd : t.maxfd = s.maxfd) : ¬ Tight t := by
  rintro ⟨n, ⟨hn, -⟩, hn'⟩
  rw [hcache] at hn
  obtain ⟨hne, -⟩ := Finset.mem_erase.mp hn
  omega

/-- The client that the scan reads is one of those connected. -/
theorem reads_client (h : Sound sfd s) (hl : s.loop = .scan i) (hisset : i ∈ s.readfd.bits)
    (hne : i ≠ sfd) : i ∈ s.clients := by
  have hscan := sound_scan h hl
  rw [hscan.readfd] at hisset
  exact ((h.1.tracked i).mp (hscan.ahead i hisset le_rfl)).resolve_left hne

theorem tight_step (hs : Server.Step sfd s a (.ok t)) (hsound : Sound sfd s)
    (hok : KeepsLargest s a) (h : Tight s) : Tight t := by
  generalize hr : Except.ok t = res at hs
  cases hs with
  | head hl | selectError hl e | select hl ready hready | skip hl hi hret hisset
  | acceptError hl hi hret hisset e | done hl hdone =>
    cases hr
    exact tight_congr h rfl rfl
  | accept hl hi hret hisset cfd hcfd =>
    cases ha : (s.counted.opened sfd cfd).accepted cfd with
    | error f =>
      rw [ha] at hr
      cases hr
    | ok u =>
      rw [ha] at hr
      cases hr
      have hcounted : Tight (s.counted.opened sfd cfd) := tight_congr h rfl rfl
      exact tight_congr (tight_accepted hcounted ha) rfl rfl
  | @read i hl hi hret hisset hne r =>
    cases hr
    have hcounted : Kept sfd s.counted := kept_congr hsound.1 rfl rfl rfl
    unfold KeepsLargest at hok
    rw [hl] at hok
    by_cases hleaves : Leaves r
    · have hclient := reads_client hsound hl hisset hne
      obtain ⟨hcache, hmaxfd⟩ := leaves_cache hcounted hclient hleaves
      exact tight_clr h (hok hleaves) hcache hmaxfd
    · obtain ⟨hcache, hmaxfd⟩ := stays_cache sfd i s.counted hleaves
      exact tight_congr h hcache hmaxfd

theorem not_tight_step (hs : Server.Step sfd s a (.ok t)) (hsound : Sound sfd s)
    (hnot : ¬ KeepsLargest s a) : ¬ Tight t := by
  generalize hr : Except.ok t = res at hs
  cases hs with
  | head hl | selectError hl e | select hl ready hready | skip hl hi hret hisset
  | acceptError hl hi hret hisset e | done hl hdone | accept hl hi hret hisset cfd hcfd =>
    exact absurd trivial hnot
  | @read i hl hi hret hisset hne r =>
    cases hr
    have hcounted : Kept sfd s.counted := kept_congr hsound.1 rfl rfl rfl
    unfold KeepsLargest at hnot
    rw [hl] at hnot
    obtain ⟨hleaves, he⟩ := Classical.not_imp.mp hnot
    have hclient := reads_client hsound hl hisset hne
    obtain ⟨hcache, hmaxfd⟩ := leaves_cache hcounted hclient hleaves
    exact not_tight_clr (s := s.counted) (not_not.mp he) hcache hmaxfd

theorem tight_initial (h : Server.Initial sfd s) : Tight s := by
  refine ⟨sfd, ⟨?_, ?_⟩, h.maxfd⟩
  · rw [h.readfdCache]
    exact Finset.mem_singleton_self sfd
  · intro m hm
    rw [h.readfdCache] at hm
    exact (Finset.mem_singleton.mp hm).le

/-- `maxfd` is tight in every run in which the client with the largest descriptor does not leave,
and when that client leaves it is not. -/
theorem tight_iff_keepsLargest (hsfd : sfd < FD_SETSIZE) :
    (∀ s, ((server sfd).restrict KeepsLargest).Reachable s → Tight s) ∧
      ∀ s a t, (server sfd).Reachable s → (server sfd).Step s a t → ¬ KeepsLargest s a →
        ¬ Tight t := by
  constructor
  · intro s h
    apply System.reachable_induction (fun _ => tight_initial) ?_ h
    rintro s a t hr ⟨hok, hs⟩ htight
    have hsound := sound_reachable hsfd (System.restrict_reachable hr)
    exact tight_step hs hsound hok htight
  · intro s a t h hs hnot
    exact not_tight_step hs (sound_reachable hsfd h) hnot

theorem step_kept {t : Server} (hs : Server.Step sfd s a (.ok t)) (hok : KeepsLargest s a) :
    ((server sfd).restrict KeepsLargest).Step s a t := ⟨hok, hs⟩

/-- Two clients come, and the first of them leaves. -/
theorem tight_iff_keepsLargest_twoClients :
    ∃ s : Server, ((server 3).restrict KeepsLargest).Reachable s ∧ s.clients = {5} ∧ s.maxfd = 6 ∧
      Tight s := by
  have hr : ∃ s : Server, ((server 3).restrict KeepsLargest).Reachable s ∧ s.clients = {5} ∧
      s.maxfd = 6 :=
    ⟨_, ⟨.start ⟨3, by decide⟩, _, start_initial ⟨3, by decide⟩,
      .stepL (step_kept (.head rfl) trivial) <|
      .stepL (step_kept (.select rfl {3} (by decide)) trivial) <|
      .stepL (step_kept (step_accept 4 rfl (by decide) (by decide) (by decide) rfl rfl) trivial) <|
      .stepL (step_kept (.done rfl (.inr rfl)) trivial) <|
      .stepL (step_kept (.head rfl) trivial) <|
      .stepL (step_kept (.select rfl {3, 4} (by decide)) trivial) <|
      .stepL (step_kept (step_accept 5 rfl (by decide) (by decide) (by decide) rfl rfl) trivial) <|
      .stepL (step_kept (.read rfl (by decide) (by decide) (by decide) (by decide)
        (.bytes [] (by decide))) (by intro _; decide)) .refl⟩, by decide, by decide⟩
  obtain ⟨s, hs, hclients, hmaxfd⟩ := hr
  exact ⟨s, hs, hclients, hmaxfd, (tight_iff_keepsLargest (by decide)).1 s hs⟩

/-- The only client leaves, and `maxfd` still counts it. -/
theorem largest_leaves :
    ¬ ∀ s : Server, (server 3).Reachable s → ∃ n, IsGreatest {m | m ∈ s.readfdCache.bits} n ∧
      s.maxfd = n + 1 := by
  intro hall
  have hr : ∃ s : Server, (server 3).Reachable s ∧ s.readfdCache.bits = {3} ∧ s.maxfd = 5 :=
    ⟨_, ⟨.start ⟨3, by decide⟩, _, start_initial ⟨3, by decide⟩,
      .stepL (.head rfl) <|
      .stepL (.select rfl {3} (by decide)) <|
      .stepL (step_accept 4 rfl (by decide) (by decide) (by decide) rfl rfl) <|
      .stepL (.done rfl (.inr rfl)) <|
      .stepL (.head rfl) <|
      .stepL (.select rfl {4} (by decide)) <|
      .stepL (.skip rfl (by decide) (by decide) (by decide)) <|
      .stepL (.read rfl (by decide) (by decide) (by decide) (by decide)
        (.bytes [] (by decide))) .refl⟩, by decide, by decide⟩
  obtain ⟨s, hs, hbits, hmaxfd⟩ := hr
  obtain ⟨n, ⟨hn, -⟩, hn'⟩ := hall s hs
  rw [hbits] at hn
  have := Finset.mem_singleton.mp hn
  omega

end UnixCodes.SelectServer
