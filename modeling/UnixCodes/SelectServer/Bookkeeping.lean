import UnixCodes.SelectServer.Model

/-! The descriptor sets of `select-server.c`, and the scan over the ready descriptors. -/
namespace UnixCodes.SelectServer

open Posix Transition

variable {sfd i n : ℕ} {s t : Server} {a : Action} {r : ReadResult 256} {cache : FdSet}

/-- The descriptors handled since the last `select`, in order. -/
def Server.handled (s : Server) : List ℕ := s.calls.filterMap Call.handled

/-- The cache holds what is open, below `maxfd`. -/
structure Kept (sfd : ℕ) (s : Server) : Prop where
  tracked : ∀ n, n ∈ s.readfdCache.bits ↔ n = sfd ∨ n ∈ s.clients
  above : ∀ c ∈ s.clients, sfd < c
  below : ∀ n ∈ s.readfdCache.bits, n < s.maxfd
  size : s.maxfd ≤ FD_SETSIZE

/-- The descriptors that have been handled are those of which `P` holds. -/
structure Handled (s : Server) (P : ℕ → Prop) : Prop where
  touched : ∀ c ∈ s.calls, c.fd ∈ s.reported
  nodup : s.handled.Nodup
  exact : ∀ n, n ∈ s.handled ↔ n ∈ s.reported ∧ P n

/-- The scan has come to `i`; `ret` counts what lies ahead. -/
structure Scanning (sfd : ℕ) (s : Server) (i : ℕ) : Prop where
  readfd : s.readfd.bits = s.reported
  start : sfd ≤ i
  room : i = sfd → s.maxfd < FD_SETSIZE
  inside : ∀ n ∈ s.reported, sfd ≤ n ∧ n < s.maxfd
  ahead : ∀ n ∈ s.reported, i ≤ n → n ∈ s.readfdCache.bits
  count : s.ret = {n ∈ s.reported | i ≤ n}.card
  handled : Handled s (· < i)

def Sound (sfd : ℕ) (s : Server) : Prop :=
  Kept sfd s ∧
    match s.loop with
    | .select => Handled s (fun _ => True) ∧ s.maxfd < FD_SETSIZE ∧ s.readfd = s.readfdCache
    | .scan i => Scanning sfd s i
    | _ => Handled s fun _ => True

/-- The loop over `j` finds the largest descriptor of the set. -/
theorem newMaxfd_self (hi : i ∈ cache.bits) (hlt : sfd < i) :
    Server.newMaxfd sfd (i + 1) cache = i + 1 := by
  have hlast : List.range' (sfd + 1) (i + 1 - (sfd + 1)) =
      List.range' (sfd + 1) (i - (sfd + 1)) ++ [i] := by
    have hlen : i + 1 - (sfd + 1) = i - (sfd + 1) + 1 := by omega
    have hend : sfd + 1 + 1 * (i - (sfd + 1)) = i := by omega
    rw [hlen, List.range'_concat, hend]
  rw [Server.newMaxfd, hlast, List.foldl_append]
  exact if_pos hi

theorem card_ahead_of_mem {R : Finset ℕ} (h : i ∈ R) :
    {n ∈ R | i ≤ n}.card = {n ∈ R | i + 1 ≤ n}.card + 1 := by
  have hinsert : {n ∈ R | i ≤ n} = insert i {n ∈ R | i + 1 ≤ n} := by
    ext n
    simp only [Finset.mem_filter, Finset.mem_insert]
    constructor
    · rintro ⟨hn, hle⟩
      by_cases he : n = i
      · exact .inl he
      · exact .inr ⟨hn, by omega⟩
    · rintro (rfl | ⟨hn, hle⟩)
      · exact ⟨h, le_rfl⟩
      · exact ⟨hn, by omega⟩
  rw [hinsert, Finset.card_insert_of_notMem (by simp)]

theorem ahead_of_notMem {R : Finset ℕ} (h : i ∉ R) :
    {n ∈ R | i ≤ n} = {n ∈ R | i + 1 ≤ n} := by
  ext n
  simp only [Finset.mem_filter, and_congr_right_iff]
  intro hn
  have hne : n ≠ i := by
    rintro rfl
    exact h hn
  omega

/-- Calls for the descriptor the scan has come to; it has not been handled before. -/
theorem handled_append {cs : List Call} (h : Handled s (· < i)) (hi : i ∈ s.reported)
    (hcs : ∀ c ∈ cs, c.fd = i) (honce : cs.filterMap Call.handled = [i])
    (hcalls : t.calls = s.calls ++ cs) (hreported : t.reported = s.reported) :
    Handled t (· < i + 1) := by
  have hhandled : t.handled = s.handled ++ [i] := by
    simp only [Server.handled, hcalls, List.filterMap_append, honce]
  refine ⟨?_, ?_, ?_⟩
  · rw [hcalls, hreported, List.forall_mem_append]
    refine ⟨h.touched, fun c hc => ?_⟩
    rw [hcs c hc]
    exact hi
  · rw [hhandled, List.nodup_append]
    refine ⟨h.nodup, List.nodup_singleton i, ?_⟩
    intro m hm n hn
    have hlt := ((h.exact m).mp hm).2
    have he := List.mem_singleton.mp hn
    omega
  · intro n
    rw [hhandled, List.mem_append, List.mem_singleton, h.exact n, hreported]
    constructor
    · rintro (⟨hn, hlt⟩ | rfl)
      · exact ⟨hn, by omega⟩
      · exact ⟨hi, by omega⟩
    · rintro ⟨hn, hlt⟩
      by_cases he : n = i
      · exact .inr he
      · exact .inl ⟨hn, by omega⟩

/-- What an `accept` or a `read` for the descriptor `i` does to the server. -/
structure Handles (sfd : ℕ) (s t : Server) (i : ℕ) : Prop where
  kept : Kept sfd t
  maxfd : s.maxfd ≤ t.maxfd
  others : ∀ n ∈ s.readfdCache.bits, n ≠ i → n ∈ t.readfdCache.bits
  readfd : t.readfd = s.readfd
  ret : t.ret = s.ret
  reported : t.reported = s.reported
  calls : ∃ cs, t.calls = s.calls ++ cs ∧ (∀ c ∈ cs, c.fd = i) ∧ cs.filterMap Call.handled = [i]

/-- The new connection gets a number that is at most `maxfd`. -/
theorem lowestFree_bounds (h : Kept sfd s) :
    sfd < lowestFree (Finset.range (sfd + 1) ∪ s.clients) ∧
      lowestFree (Finset.range (sfd + 1) ∪ s.clients) ≤ s.maxfd := by
  have hsfd := h.below sfd ((h.tracked sfd).mpr (.inl rfl))
  constructor
  · apply lt_lowestFree
    intro m hm
    exact Finset.mem_union_left _ (Finset.mem_range.mpr (by omega))
  · apply lowestFree_le
    intro hmem
    rcases Finset.mem_union.mp hmem with hmem | hmem
    · have := Finset.mem_range.mp hmem
      omega
    · have := h.below s.maxfd ((h.tracked _).mpr (.inr hmem))
      omega

theorem FdSet.set_ok (cache : FdSet) {fd : ℕ} (h : fd < FD_SETSIZE) :
    ∃ c, cache.set fd = .ok c ∧ c.bits = insert fd cache.bits :=
  ⟨_, dif_pos h, rfl⟩

/-- Inside the `fd_set` the new descriptor gets its bit, and `maxfd` stays above it. -/
theorem accepted_eq (s : Server) {cfd : ℕ} (h : cfd < FD_SETSIZE) :
    ∃ cache : FdSet, cache.bits = insert cfd s.readfdCache.bits ∧
      s.accepted cfd = .ok { s with readfdCache := cache, maxfd := max s.maxfd (cfd + 1) } := by
  have hmax : (if s.maxfd ≤ cfd then cfd + 1 else s.maxfd) = max s.maxfd (cfd + 1) := by
    split <;> omega
  obtain ⟨c, hset, hbits⟩ := FdSet.set_ok s.readfdCache h
  refine ⟨c, hbits, ?_⟩
  unfold Server.accepted
  rw [hset, hmax]
  rfl

theorem accepted_ok {cfd : ℕ} (h : Kept sfd s) (hroom : s.maxfd < FD_SETSIZE)
    (hcfd : cfd = lowestFree (Finset.range (sfd + 1) ∪ s.clients)) :
    ∃ t, (s.opened sfd cfd).accepted cfd = .ok t ∧ Handles sfd s t sfd := by
  obtain ⟨hlt, hle⟩ := lowestFree_bounds h
  rw [← hcfd] at hlt hle
  have hsize : cfd < FD_SETSIZE := by omega
  obtain ⟨cache, hbits, hok⟩ := accepted_eq (s.opened sfd cfd) hsize
  refine ⟨_, hok, ⟨?_, ?_, ?_, ?_⟩, le_max_left .., ?_, rfl, rfl, rfl, [.accept sfd], rfl,
    by simp [Call.fd], rfl⟩
  · intro n
    simp only [hbits, Server.opened, Finset.mem_insert, h.tracked]
    tauto
  · intro c hc
    rcases Finset.mem_insert.mp hc with rfl | hc
    · exact hlt
    · exact h.above c hc
  · intro n hn
    rw [hbits] at hn
    rcases Finset.mem_insert.mp hn with rfl | hn
    · exact lt_max_of_lt_right (Nat.lt_succ_self n)
    · exact lt_max_of_lt_left (h.below n hn)
  · change max s.maxfd (cfd + 1) ≤ FD_SETSIZE
    omega
  · intro n hn _
    rw [hbits]
    exact Finset.mem_insert_of_mem hn

/-- The loop over `j` runs while the bit of the client that leaves is still set. -/
theorem newMaxfd_stays (h : Kept sfd s) (hi : i ∈ s.clients) :
    (if i = s.maxfd - 1 then Server.newMaxfd sfd s.maxfd s.readfdCache else s.maxfd) =
      s.maxfd := by
  have hcache : i ∈ s.readfdCache.bits := (h.tracked i).mpr (.inr hi)
  split
  · have hlt := h.below i hcache
    have hmax : s.maxfd = i + 1 := by omega
    rw [hmax]
    exact newMaxfd_self hcache (h.above i hi)
  · rfl

/-- `maxfd` stays, also when its client leaves. -/
theorem served_handles (h : Kept sfd s) (hi : i ∈ s.clients) :
    Handles sfd s (s.served sfd i r) i := by
  have habove := h.above i hi
  have hmaxfd := newMaxfd_stays h hi
  have hleave : Handles sfd s
      { s with
        maxfd := s.maxfd
        readfdCache := s.readfdCache.clr i
        clients := s.clients.erase i
        calls := s.calls ++ [.read i, .close i] } i := by
    refine ⟨⟨?_, ?_, ?_, h.size⟩, le_rfl, fun n hn hne => Finset.mem_erase.mpr ⟨hne, hn⟩, rfl, rfl,
      rfl, [.read i, .close i], rfl, by simp [Call.fd], rfl⟩
    · intro n
      simp only [FdSet.clr, Finset.mem_erase, h.tracked]
      have : n = sfd → n ≠ i := by omega
      tauto
    · intro c hc
      exact h.above c (Finset.mem_of_mem_erase hc)
    · intro n hn
      exact h.below n (Finset.mem_of_mem_erase hn)
  rcases r with e | ⟨_ | ⟨b, bs⟩, hle⟩
  · simp only [Server.served, hmaxfd]
    exact hleave
  · simp only [Server.served, hmaxfd]
    exact hleave
  · exact ⟨⟨h.tracked, h.above, h.below, h.size⟩, le_rfl, fun n hn _ => hn, rfl, rfl, rfl,
      [.read i, .write i (b :: bs), .shutdown i], rfl, by simp [Call.fd], rfl⟩

/-- A turn of the scan that has handled `i`. -/
theorem scanning_handled (h : Scanning sfd s i) (hi : i ∈ s.reported)
    (ht : Handles sfd s.counted t i) : Scanning sfd { t with loop := .scan (i + 1) } (i + 1) := by
  obtain ⟨-, hmaxfd, hkeep, hreadfd, hret, hreported, cs, happend, hfd, honce⟩ := ht
  dsimp only [Server.counted] at hmaxfd hkeep hreadfd hret hreported happend
  have hstart := h.start
  refine ⟨?_, by omega, by omega, ?_, ?_, ?_, ?_⟩
  · rw [hreadfd, hreported]
    exact h.readfd
  · intro n hn
    obtain ⟨hle, hlt⟩ := h.inside n (hreported ▸ hn)
    exact ⟨hle, hlt.trans_le hmaxfd⟩
  · intro n hn hle
    exact hkeep n (h.ahead n (hreported ▸ hn) (by omega)) (by omega)
  · rw [hret, h.count, hreported, card_ahead_of_mem hi]
    omega
  · exact handled_append h.handled hi hfd honce happend hreported

theorem scanning_skip (h : Scanning sfd s i) (hi : i ∉ s.readfd.bits) :
    Scanning sfd { s with loop := .scan (i + 1) } (i + 1) := by
  rw [h.readfd] at hi
  have hstart := h.start
  refine ⟨h.readfd, by omega, by omega, h.inside, ?_, ?_, ?_, h.handled.nodup, ?_⟩
  · intro n hn hle
    exact h.ahead n hn (by omega)
  · rw [← ahead_of_notMem hi]
    exact h.count
  · exact h.handled.touched
  · intro n
    refine (h.handled.exact n).trans (and_congr_right fun hn => ?_)
    have hne : n ≠ i := by
      rintro rfl
      exact hi hn
    omega

/-- When the scan ends, early or not, everything has been handled. -/
theorem handled_all (h : Scanning sfd s i) (hdone : s.maxfd ≤ i ∨ s.ret = 0) :
    Handled s fun _ => True := by
  refine ⟨h.handled.touched, h.handled.nodup, fun n => ?_⟩
  refine (h.handled.exact n).trans (and_congr_right fun hn => ⟨fun _ => trivial, fun _ => ?_⟩)
  by_contra hge
  rcases hdone with hle | hret
  · have := (h.inside n hn).2
    omega
  · have hempty := Finset.card_eq_zero.mp (h.count.symm.trans hret)
    have hmem : n ∈ ({n ∈ s.reported | i ≤ n} : Finset ℕ) :=
      Finset.mem_filter.mpr ⟨hn, Nat.le_of_not_lt hge⟩
    rw [hempty] at hmem
    exact Finset.notMem_empty n hmem

theorem kept_congr (h : Kept sfd s) (hcache : t.readfdCache = s.readfdCache)
    (hmaxfd : t.maxfd = s.maxfd) (hclients : t.clients = s.clients) : Kept sfd t := by
  refine ⟨?_, ?_, ?_, ?_⟩
  · rw [hcache, hclients]
    exact h.tracked
  · rw [hclients]
    exact h.above
  · rw [hcache, hmaxfd]
    exact h.below
  · rw [hmaxfd]
    exact h.size

theorem handled_none (hcalls : t.calls = []) (hreported : t.reported = ∅) :
    Handled t fun _ => True := by
  refine ⟨by simp [hcalls], by simp [Server.handled, hcalls], ?_⟩
  simp [Server.handled, hcalls, hreported]

theorem sound_scan (h : Sound sfd s) (hl : s.loop = .scan i) : Scanning sfd s i := by
  have hs := h.2
  rwa [hl] at hs

theorem sound_select (h : Sound sfd s) (hl : s.loop = .select) :
    s.maxfd < FD_SETSIZE ∧ s.readfd = s.readfdCache := by
  have hs := h.2
  rw [hl] at hs
  exact hs.2

theorem scanning_start {ready : Finset ℕ} {hbound : ∀ n ∈ ready, n < FD_SETSIZE}
    (h : Sound sfd s) (hl : s.loop = .select)
    (hready : ∀ n ∈ ready, n ∈ s.readfd.bits ∧ n < s.maxfd) :
    Scanning sfd { s with
      readfd := ⟨ready, hbound⟩, ret := ready.card, reported := ready, calls := []
      loop := .scan sfd } sfd := by
  obtain ⟨hroom, hreadfd⟩ := sound_select h hl
  have hcache (n : ℕ) (hn : n ∈ ready) : n ∈ s.readfdCache.bits := hreadfd ▸ (hready n hn).1
  have hfrom (n : ℕ) (hn : n ∈ ready) : sfd ≤ n := by
    rcases (h.1.tracked n).mp (hcache n hn) with rfl | hc
    · exact le_rfl
    · exact (h.1.above n hc).le
  refine ⟨rfl, le_rfl, fun _ => hroom, ?_, fun n hn _ => hcache n hn, ?_, ?_, ?_, ?_⟩
  · intro n hn
    exact ⟨hfrom n hn, (hready n hn).2⟩
  · rw [Finset.filter_true_of_mem hfrom]
  · simp
  · simp [Server.handled]
  · intro n
    simp only [Server.handled, List.filterMap_nil, List.not_mem_nil, false_iff, not_and, not_lt]
    exact hfrom n

/-- The listening socket is the first descriptor of the scan, while `maxfd` is what `select` has
been called with. -/
theorem sound_accept {cfd : ℕ} (hkept : Kept sfd s) (hscan : Scanning sfd s sfd)
    (hready : sfd ∈ s.reported)
    (hcfd : cfd = lowestFree (Finset.range (sfd + 1) ∪ s.clients)) :
    ∃ t, ((s.counted.opened sfd cfd).accepted cfd).map
        (fun s => { s with loop := .scan (sfd + 1) }) = .ok t ∧ Sound sfd t := by
  have hcounted : Kept sfd s.counted := kept_congr hkept rfl rfl rfl
  obtain ⟨t, ht, hhandles⟩ := accepted_ok hcounted (hscan.room rfl) hcfd
  rw [ht]
  exact ⟨_, rfl, kept_congr hhandles.kept rfl rfl rfl, scanning_handled hscan hready hhandles⟩

theorem sound_read (hkept : Kept sfd s) (hscan : Scanning sfd s i) (hready : i ∈ s.reported)
    (hne : i ≠ sfd) : Sound sfd { s.counted.served sfd i r with loop := .scan (i + 1) } := by
  have hcounted : Kept sfd s.counted := kept_congr hkept rfl rfl rfl
  have hcache := hscan.ahead i hready le_rfl
  have hclient : i ∈ s.counted.clients := ((hkept.tracked i).mp hcache).resolve_left hne
  have hhandles := served_handles (r := r) hcounted hclient
  exact ⟨kept_congr hhandles.kept rfl rfl rfl, scanning_handled hscan hready hhandles⟩

theorem sound_step {r : Except Fault Server} (hs : Server.Step sfd s a r) (h : Sound sfd s) :
    ∃ t, r = .ok t ∧ Sound sfd t := by
  cases hs with
  | head hl =>
    have hall : Handled s fun _ => True := by
      have := h.2
      rwa [hl] at this
    have hkept : ∀ l, Kept sfd { s with readfd := s.readfdCache, loop := l } :=
      fun l => kept_congr h.1 rfl rfl rfl
    refine ⟨_, rfl, hkept _, ?_⟩
    by_cases hfull : FD_SETSIZE ≤ s.maxfd
    · simp only [hfull, if_true]
      exact ⟨hall.touched, hall.nodup, hall.exact⟩
    · simp only [hfull, if_false]
      exact ⟨⟨hall.touched, hall.nodup, hall.exact⟩, by omega, trivial⟩
  | selectError hl e =>
    refine ⟨_, rfl, kept_congr h.1 rfl rfl rfl, ?_⟩
    by_cases he : e = EINTR
    · simp only [he, if_true]
      exact handled_none rfl rfl
    · simp only [he, if_false]
      exact handled_none rfl rfl
  | select hl ready hready =>
    refine ⟨_, rfl, kept_congr h.1 rfl rfl rfl, ?_⟩
    by_cases hzero : ready.card = 0
    · simp only [hzero, if_true]
      exact handled_none rfl (Finset.card_eq_zero.mp hzero)
    · simp only [hzero, if_false]
      exact scanning_start h hl hready
  | skip hl hi hret hisset =>
    exact ⟨_, rfl, kept_congr h.1 rfl rfl rfl, scanning_skip (sound_scan h hl) hisset⟩
  | acceptError hl hi hret hisset e =>
    have hscan := sound_scan h hl
    rw [hscan.readfd] at hisset
    have hkept : Kept sfd s := h.1
    have hhandles :
        Handles sfd s.counted { s.counted with calls := s.calls ++ [.accept sfd] } sfd :=
      ⟨kept_congr hkept rfl rfl rfl, le_rfl, fun n hn _ => hn, rfl, rfl, rfl,
        [.accept sfd], rfl, by simp [Call.fd], rfl⟩
    exact ⟨_, rfl, kept_congr hkept rfl rfl rfl, scanning_handled hscan hisset hhandles⟩
  | accept hl hi hret hisset cfd hcfd =>
    have hscan := sound_scan h hl
    exact sound_accept h.1 hscan (hscan.readfd ▸ hisset) hcfd
  | @read i hl hi hret hisset hne r =>
    have hscan := sound_scan h hl
    exact ⟨_, rfl, sound_read h.1 hscan (hscan.readfd ▸ hisset) hne⟩
  | done hl hdone =>
    obtain ⟨htouched, hnodup, hexact⟩ := handled_all (sound_scan h hl) hdone
    exact ⟨_, rfl, kept_congr h.1 rfl rfl rfl, htouched, hnodup, hexact⟩

theorem sound_initial (hsfd : sfd < FD_SETSIZE) (h : Server.Initial sfd s) : Sound sfd s := by
  have hmaxfd := h.maxfd
  refine ⟨⟨?_, ?_, ?_, by omega⟩, ?_⟩
  · simp [h.readfdCache, h.clients]
  · simp [h.clients]
  · simp only [h.readfdCache, Finset.mem_singleton, forall_eq]
    omega
  · rw [h.loop]
    exact handled_none h.calls h.reported

theorem sound_reachable (hsfd : sfd < FD_SETSIZE) (h : (server sfd).Reachable s) :
    Sound sfd s := by
  apply System.reachable_invariant (fun _ => sound_initial hsfd) ?_ h
  intro s a t hs hsound
  obtain ⟨t', ht, hsound'⟩ := sound_step hs hsound
  cases ht
  exact hsound'

/-- The cache is what is open, no bit is set outside an `fd_set`, and an iteration handles what
`select` has reported. -/
structure Bookkeeping (sfd : ℕ) (s : Server) : Prop where
  tracked : ∀ n, n ∈ s.readfdCache.bits ↔ n = sfd ∨ n ∈ s.clients
  below : ∀ n ∈ s.readfdCache.bits, n < s.maxfd
  inBounds : ∀ a f, ¬ Server.Step sfd s a (.error f)
  touched : ∀ c ∈ s.calls, c.fd ∈ s.reported
  once : (∀ i, s.loop ≠ .scan i) → s.handled.Nodup ∧ ∀ n, n ∈ s.handled ↔ n ∈ s.reported

theorem bookkeeping (hsfd : sfd < FD_SETSIZE) (h : (server sfd).Reachable s) :
    Bookkeeping sfd s := by
  have hs := sound_reachable hsfd h
  refine ⟨hs.1.tracked, hs.1.below, ?_, ?_, ?_⟩
  · intro a f hf
    obtain ⟨t, ht, -⟩ := sound_step hf hs
    cases ht
  · have hs' := hs.2
    split at hs'
    · exact hs'.1.touched
    · exact hs'.handled.touched
    · exact hs'.touched
  · intro hl
    have hs' := hs.2
    have hall : Handled s fun _ => True := by
      split at hs'
      · exact hs'.1
      · rename_i i hi
        exact absurd hi (hl i)
      · exact hs'
    refine ⟨hall.nodup, fun n => ?_⟩
    rw [hall.exact n, and_true]

theorem step_accept (cfd : ℕ) (hl : s.loop = .scan sfd) (hi : sfd < s.maxfd) (hret : s.ret ≠ 0)
    (hisset : sfd ∈ s.readfd.bits) (hcfd : cfd = lowestFree (Finset.range (sfd + 1) ∪ s.clients))
    (h : (s.counted.opened sfd cfd).accepted cfd = .ok t) :
    Server.Step sfd s (.accept none) (.ok { t with loop := .scan (sfd + 1) }) := by
  have hstep := Server.Step.accept hl hi hret hisset cfd hcfd
  rwa [h] at hstep

/-- A client comes and gets the lowest number. -/
theorem bookkeeping_oneClient :
    ∃ s : Server, (server 3).Reachable s ∧ s.loop = .head ∧ s.handled = [3] ∧ s.clients = {4} ∧
      s.maxfd = 5 ∧ Bookkeeping 3 s := by
  have hr : ∃ s : Server, (server 3).Reachable s ∧ s.loop = .head ∧ s.handled = [3] ∧
      s.clients = {4} ∧ s.maxfd = 5 :=
    ⟨_, ⟨.start ⟨3, by decide⟩, _, start_initial ⟨3, by decide⟩,
      .stepL (.head rfl) <|
      .stepL (.select rfl {3} (by decide)) <|
      .stepL (step_accept 4 rfl (by decide) (by decide) (by decide) rfl rfl) <|
      .stepL (.done rfl (.inr rfl)) .refl⟩, rfl, rfl, rfl, rfl⟩
  obtain ⟨s, hs, hl, hhandled, hclients, hmaxfd⟩ := hr
  exact ⟨s, hs, hl, hhandled, hclients, hmaxfd, bookkeeping (by decide) hs⟩

end UnixCodes.SelectServer
