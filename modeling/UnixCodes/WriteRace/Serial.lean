import UnixCodes.Lib.Mutex
import UnixCodes.WriteRace.Model

/-! The file of `write_race.c` holds what one thread writes behind what the other writes, whichever
of them has the mutex first. -/
namespace UnixCodes.WriteRace

open Posix Transition Mutex

variable {s s' : Race} {t u : Thread} {a : Action} {xs : List Action}

/-- Between `pthread_mutex_lock` and `pthread_mutex_unlock`. -/
def Pc.Inside : Pc → Prop
  | .write _ | .printf _ _ | .unlock => True
  | _ => False

/-- How many calls of `write` have been made. -/
def Pc.done : Pc → ℕ
  | .absent | .lock => 0
  | .write i => i
  | .printf i _ => i + 1
  | .unlock | .ret | .returned _ => 100

/-- How often the lock has been taken. -/
def Pc.entered : Pc → ℕ
  | .absent | .lock => 0
  | _ => 1

/-- The steps that are left, at most. -/
def Pc.left : Pc → ℕ
  | .absent => 204
  | .lock => 203
  | .write i => 202 - 2 * i
  | .printf i _ => 201 - 2 * i
  | .unlock => 2
  | .ret => 1
  | .returned _ => 0

/-- What the code keeps true of the place of a thread. -/
def Pc.Valid (t : Thread) : Pc → Prop
  | .write i | .printf i _ => i < 100
  | .returned value => value = t.func.value
  | _ => True

/-- The thread has been created for certain. -/
def MainPc.Created : MainPc → Thread → Prop
  | .setup c, t => c = .create1 ∧ t = .thread2
  | .returned code, _ => code = 0
  | _, _ => True

/-- The thread has been waited for. -/
def MainPc.Joined : MainPc → Thread → Prop
  | .setup _, _ => False
  | .join u, t => u = .thread2 ∧ t = .thread1
  | .printf u _, t => u = .thread2 ∨ t = .thread1
  | .close, _ => True
  | .returned code, _ => code = 0

structure Inv (s : Race) : Prop where
  holder : ∀ t, s.lock = some t ↔ (s.pc t).Inside
  valid : ∀ t, (s.pc t).Valid t
  created : ∀ t, s.main.Created t → s.pc t ≠ .absent
  fresh : ∀ c t, s.main = .setup c → ¬ s.main.Created t → s.pc t = .absent
  joined : ∀ t, s.main.Joined t → s.pc t = .returned t.func.value
  ptRet : ∀ t ptRet, s.main = .printf t ptRet → ptRet = t.func.value
  opened : s.Running → s.main ≠ .setup .openFile → s.fdOpen = true

theorem Pc.loop_valid (i : ℕ) : (Pc.loop i).Valid t := by
  unfold Pc.loop
  split
  · assumption
  · trivial

theorem Pc.loop_inside (i : ℕ) : (Pc.loop i).Inside := by
  unfold Pc.loop
  split <;> trivial

theorem Pc.loop_ne_absent (i : ℕ) : Pc.loop i ≠ .absent := by
  unfold Pc.loop
  split <;> simp

theorem Pc.done_loop {i : ℕ} (h : i ≤ 100) : (Pc.loop i).done = i := by
  unfold Pc.loop
  split
  · rfl
  · simp only [Pc.done]
    omega

theorem Pc.left_loop {i : ℕ} (h : i ≤ 100) : (Pc.loop i).left = 202 - 2 * i := by
  unfold Pc.loop
  split
  · rfl
  · simp only [Pc.left]
    omega

@[simp] theorem Pc.entered_loop (i : ℕ) : (Pc.loop i).entered = 1 := by
  unfold Pc.loop
  split <;> rfl

theorem inv_start : Inv .start := by
  refine ⟨?_, ?_, ?_, ?_, ?_, ?_, ?_⟩ <;> simp [Race.start, Pc.Inside, Pc.Valid, MainPc.Created,
    MainPc.Joined]

/-- A step of a thread, which leaves `main` and the descriptor alone. -/
theorem Inv.thread {p : Pc} (h : Inv s) (hpc : s'.pc = Function.update s.pc t p)
    (hmain : s'.main = s.main) (hfd : s'.fdOpen = s.fdOpen) (ht : s.pc t ≠ .absent)
    (hret : ∀ v, s.pc t ≠ .returned v) (hp : p ≠ .absent) (hvalid : p.Valid t)
    (hlock : ∀ u, s'.lock = some u ↔ (Function.update s.pc t p u).Inside) : Inv s' := by
  have hself : s'.pc t = p := by rw [hpc, Function.update_self]
  have hother (u : Thread) (hne : u ≠ t) : s'.pc u = s.pc u := by
    rw [hpc, Function.update_of_ne hne]
  refine ⟨?_, ?_, ?_, ?_, ?_, ?_, ?_⟩
  · rwa [hpc]
  · intro u
    rcases eq_or_ne u t with rfl | hne
    · rwa [hself]
    · rw [hother u hne]
      exact h.valid u
  · intro u hu
    rcases eq_or_ne u t with rfl | hne
    · rwa [hself]
    · rw [hother u hne]
      exact h.created u (hmain ▸ hu)
  · intro c u hm hu
    rw [hmain] at hm hu
    rcases eq_or_ne u t with rfl | hne
    · exact absurd (h.fresh c u hm hu) ht
    · rw [hother u hne]
      exact h.fresh c u hm hu
  · intro u hu
    rw [hmain] at hu
    rcases eq_or_ne u t with rfl | hne
    · exact absurd (h.joined u hu) (hret _)
    · rw [hother u hne]
      exact h.joined u hu
  · intro u v hm
    exact h.ptRet u v (hmain ▸ hm)
  · intro hrun hne
    rw [hfd]
    exact h.opened (fun code hc => hrun code (hmain.trans hc)) (hmain ▸ hne)

/-- A step inside the critical section, or outside of it. -/
theorem Inv.holder_update {p : Pc} (h : Inv s) (hp : p.Inside ↔ (s.pc t).Inside) (u : Thread) :
    s.lock = some u ↔ (Function.update s.pc t p u).Inside := by
  rcases eq_or_ne u t with rfl | hne
  · rw [Function.update_self, hp]
    exact h.holder u
  · rw [Function.update_of_ne hne]
    exact h.holder u

theorem inv_setup {c : Setup} (h : Inv s) (hm : s.main = .setup c) : Inv (s.completed c) := by
  have hcreated : ∀ t, (s.completed c).pc t = s.pc t ∨
      s.pc t = .absent ∧ (s.completed c).pc t = .lock := by
    intro t
    by_cases hc : c.thread = some t
    · right
      refine ⟨h.fresh c t hm ?_, if_pos hc⟩
      rw [hm]
      rintro ⟨rfl, rfl⟩
      cases hc
    · exact .inl (if_neg hc)
  refine ⟨?_, ?_, ?_, ?_, ?_, ?_, ?_⟩
  · intro t
    rcases hcreated t with he | ⟨ha, hl⟩
    · rw [he]
      exact h.holder t
    · have := h.holder t
      rw [ha] at this
      rw [hl]
      exact this
  · intro t
    rcases hcreated t with he | ⟨-, hl⟩
    · rw [he]
      exact h.valid t
    · rw [hl]
      trivial
  · intro t ht
    have := h.created t
    cases c <;> cases t <;> simp_all [Race.completed, Setup.next, Setup.thread, MainPc.Created]
  · intro d t hd ht
    have := h.fresh c t hm
    cases c <;> cases t <;> simp_all [Race.completed, Setup.next, Setup.thread, MainPc.Created]
  · intro t ht
    cases c <;> simp [Race.completed, Setup.next, MainPc.Joined] at ht
  · intro t v ht
    cases c <;> simp [Race.completed, Setup.next] at ht
  · intro _ hne
    have := h.opened (by simp [Race.Running, hm])
    cases c <;> simp_all [Race.completed]

theorem inv_step (hs : Race.Step s a s') (h : Inv s) : Inv s' := by
  cases hs with
  | setup hm => exact inv_setup h hm
  | fail hm =>
    refine ⟨h.holder, h.valid, ?_, ?_, ?_, ?_, ?_⟩ <;> simp [Race.print, MainPc.Created,
      MainPc.Joined, Race.Running]
  | @join t value hm ht =>
    have hvalue : value = t.func.value := by
      have := h.valid t
      rwa [ht] at this
    refine ⟨h.holder, h.valid, ?_, by simp, ?_, ?_, ?_⟩
    · intro u _
      exact h.created u (by simp [hm, MainPc.Created])
    · intro u hu
      by_cases he : u = t
      · rw [he, ht, hvalue]
      · refine h.joined u ?_
        rw [hm]
        cases t <;> cases u <;> simp_all [MainPc.Joined]
    · rintro u v ⟨⟩
      exact hvalue
    · intro _ _
      exact h.opened (by simp [Race.Running, hm]) (by simp [hm])
  | @printfMain t ptRet hm =>
    refine ⟨h.holder, h.valid, ?_, ?_, ?_, ?_, ?_⟩
    · intro u _
      exact h.created u (by simp [hm, MainPc.Created])
    · intro c u hc
      cases t <;> cases hc
    · intro u hu
      refine h.joined u ?_
      rw [hm]
      cases t <;> cases u <;> simp_all [MainPc.Joined, MainPc.afterPrintf]
    · intro u v hu
      cases t <;> cases hu
    · intro _ _
      exact h.opened (by simp [Race.Running, hm]) (by simp [hm])
  | close hm =>
    refine ⟨h.holder, h.valid, ?_, by simp, ?_, by simp, ?_⟩
    · intro u _
      exact h.created u (by simp [hm, MainPc.Created])
    · intro u _
      exact h.joined u (by simp [hm, MainPc.Joined])
    · intro hrun
      exact absurd rfl (hrun 0)
  | @lock t hrun ht hl =>
    refine h.thread rfl rfl rfl (by simp [ht]) (by simp [ht]) (Pc.loop_ne_absent 0)
      (Pc.loop_valid 0) ?_
    intro u
    rcases eq_or_ne u t with rfl | hne
    · rw [Function.update_self]
      exact iff_of_true rfl (Pc.loop_inside 0)
    · rw [Function.update_of_ne hne, ← h.holder u, hl]
      exact iff_of_false (fun he => hne (Option.some.inj he).symm) (by simp)
  | @write t i hrun ht r hfd =>
    have hi := h.valid t
    rw [ht] at hi
    refine h.thread rfl rfl rfl (by simp [ht]) (by simp [ht]) (by simp) hi (h.holder_update ?_)
    rw [ht]
    exact Iff.rfl
  | @printf t i wn hrun ht =>
    refine h.thread rfl rfl rfl (by simp [ht]) (by simp [ht]) (Pc.loop_ne_absent _)
      (Pc.loop_valid _)
      (h.holder_update ?_)
    rw [ht]
    exact iff_of_true (Pc.loop_inside _) trivial
  | @unlock t hrun ht =>
    refine h.thread rfl rfl rfl (by simp [ht]) (by simp [ht]) (by simp) trivial ?_
    have hlock : s.lock = some t := by
      rw [h.holder, ht]
      trivial
    intro u
    rcases eq_or_ne u t with rfl | hne
    · rw [Function.update_self]
      exact iff_of_false (by simp) id
    · rw [Function.update_of_ne hne, ← h.holder u, hlock]
      exact iff_of_false (by simp) fun he => hne (Option.some.inj he).symm
  | @ret t hrun ht =>
    refine h.thread rfl rfl rfl (by simp [ht]) (by simp [ht]) (by simp) rfl (h.holder_update ?_)
    rw [ht]
    exact Iff.rfl

theorem inv_reachable (h : race.Reachable s) : Inv s := by
  apply System.reachable_invariant ?_ (fun _ _ _ hs hi => inv_step hs hi) h
  rintro _ rfl
  exact inv_start

/-- What a step does under the mutex; an access is what a `write` appends. -/
def Action.event : Action → Option (Event Thread (List UInt8))
  | .lock t => some (.acquire t)
  | .write t r => some (.access t (t.func.line.take r.accepted))
  | .unlock t => some (.release t)
  | _ => none

def history (xs : List Action) : List (Event Thread (List UInt8)) := xs.filterMap Action.event

/-- The threads in the order in which they take the mutex. -/
def lockers (xs : List Action) : List Thread := acquirers (history xs)

/-- What the calls of `write` of the thread append, call by call. -/
def chunks (t : Thread) (xs : List Action) : List (List UInt8) := accessesBy t (history xs)

theorem history_cons : history (a :: xs) = a.event.toList ++ history xs := by
  unfold history
  rw [List.filterMap_cons]
  cases a.event <;> rfl

/-- The mutex lets the steps of a run through. -/
theorem Inv.locked (h : Inv s) (hr : race.Run s xs s') : Locked s.lock (history xs) s'.lock := by
  induction hr with
  | refl => exact .nil
  | @stepL s a t xs u hs _ ih =>
    have hi := ih (inv_step hs h)
    rw [history_cons]
    cases hs with
    | lock _ ht hl =>
      rw [hl]
      exact .acquire hi
    | @write t i _ ht r _ =>
      have hlock : s.lock = some t := by
        rw [h.holder, ht]
        trivial
      have hi' : Locked s.lock (history xs) u.lock := hi
      rw [hlock] at hi' ⊢
      exact .access _ hi'
    | @unlock t _ ht =>
      have hlock : s.lock = some t := by
        rw [h.holder, ht]
        trivial
      rw [hlock]
      exact .release hi
    | _ => exact hi

theorem file_run (hr : race.Run s xs s') :
    s'.file = s.file ++ (accesses (history xs)).flatMap Prod.snd := by
  induction hr with
  | refl => simp [history, accesses]
  | @stepL s a t xs u hs _ ih =>
    rw [ih, history_cons]
    cases hs <;> simp [Action.event, accesses, Race.setPc, Race.print, Race.completed]

/-- The thread whose step it is. -/
def Action.thread : Action → Option Thread
  | .main | .fail => none
  | .lock t | .write t _ | .printf t | .unlock t | .ret t => some t

/-- The moves of a thread. -/
inductive Pc.Moves (t : Thread) : Pc → Action → Pc → Prop
  | create : Moves t .absent .main .lock
  | lock : Moves t .lock (.lock t) (.loop 0)
  | write {i : ℕ} (hi : i < 100) (r : WriteResult t.func.line.length) :
      Moves t (.write i) (.write t r) (.printf i (result r))
  | printf {i : ℕ} (hi : i < 100) (wn : Except Errno ℕ) :
      Moves t (.printf i wn) (.printf t) (.loop (i + 1))
  | unlock : Moves t .unlock (.unlock t) .ret
  | ret : Moves t .ret (.ret t) (.returned t.func.value)

/-- A step moves the threads that it is about, and leaves the others where they are. -/
theorem moves_step (hs : Race.Step s a s') (h : Inv s) (t : Thread) :
    s'.pc t = s.pc t ∧ a.thread ≠ some t ∨ (s.pc t).Moves t a (s'.pc t) := by
  have hother {u : Thread} (p : Pc) (hne : t ≠ u) :
      Function.update s.pc u p t = s.pc t ∧ some u ≠ some t :=
    ⟨Function.update_of_ne hne .., fun he => hne (Option.some.inj he).symm⟩
  have hself (p : Pc) : Function.update s.pc t p t = p := Function.update_self ..
  have hvalid := h.valid t
  cases hs with
  | @setup c hm =>
    by_cases hc : c.thread = some t
    · right
      have ha : s.pc t = .absent := by
        refine h.fresh c t hm ?_
        rw [hm]
        rintro ⟨rfl, rfl⟩
        cases hc
      have hl : (s.completed c).pc t = .lock := if_pos hc
      rw [ha, hl]
      exact .create
    · exact .inl ⟨if_neg hc, nofun⟩
  | fail hm => exact .inl ⟨rfl, nofun⟩
  | join hm ht => exact .inl ⟨rfl, nofun⟩
  | printfMain hm => exact .inl ⟨rfl, nofun⟩
  | close hm => exact .inl ⟨rfl, nofun⟩
  | @lock u hrun ht hl =>
    rcases eq_or_ne t u with rfl | hne
    · right
      simp only [Race.setPc, hself, ht]
      exact .lock
    · exact .inl (hother _ hne)
  | @write u i hrun ht r hfd =>
    rcases eq_or_ne t u with rfl | hne
    · right
      simp only [Race.setPc, hself, ht] at hvalid ⊢
      exact .write hvalid r
    · exact .inl (hother _ hne)
  | @printf u i wn hrun ht =>
    rcases eq_or_ne t u with rfl | hne
    · right
      simp only [Race.setPc, Race.print, hself, ht] at hvalid ⊢
      exact .printf hvalid wn
    · exact .inl (hother _ hne)
  | @unlock u hrun ht =>
    rcases eq_or_ne t u with rfl | hne
    · right
      simp only [Race.setPc, hself, ht]
      exact .unlock
    · exact .inl (hother _ hne)
  | @ret u hrun ht =>
    rcases eq_or_ne t u with rfl | hne
    · right
      simp only [Race.setPc, hself, ht]
      exact .ret
    · exact .inl (hother _ hne)

theorem event_of_thread_ne (ht : a.thread ≠ some t) :
    chunks t [a] = [] ∧ (lockers [a]).count t = 0 ∧ a.event ≠ some (.release t) := by
  have hne {u : Thread} (hu : some u ≠ some t) : u ≠ t := fun he => hu (congrArg some he)
  cases a with
  | lock u => exact ⟨rfl, List.count_eq_zero.mpr fun hu => ht (by simp_all [lockers, history,
      Action.event, acquirers, Action.thread]), nofun⟩
  | write u r => exact ⟨accessesBy_of_ne (hne ht), rfl, nofun⟩
  | unlock u => exact ⟨rfl, rfl, fun he => ht (by simp_all [Action.event, Action.thread])⟩
  | _ => exact ⟨rfl, rfl, nofun⟩

theorem moves_done {p q : Pc} (h : p.Moves t a q) : p.done + (chunks t [a]).length = q.done := by
  cases h with
  | lock => rfl
  | write hi r => simp [chunks, history, Action.event, accessesBy, Pc.done]
  | printf hi wn =>
    rw [Pc.done_loop hi]
    rfl
  | _ => rfl

theorem moves_entered {p q : Pc} (h : p.Moves t a q) :
    p.entered + (lockers [a]).count t = q.entered := by
  cases h with
  | lock =>
    rw [Pc.entered_loop]
    simp [lockers, history, Action.event, acquirers, Pc.entered]
  | printf hi wn =>
    rw [Pc.entered_loop]
    rfl
  | _ => rfl

theorem moves_left {p q : Pc} (h : p.Moves t a q) : q.left < p.left := by
  cases h with
  | lock => decide
  | write hi r =>
    simp only [Pc.left]
    omega
  | printf hi wn =>
    rw [Pc.left_loop hi]
    simp only [Pc.left]
    omega
  | _ => simp [Pc.left]

theorem moves_release {p q : Pc} (h : p.Moves t a q) (he : a.event = some (.release t)) :
    q.left ≤ 1 := by
  cases h with
  | unlock => exact le_rfl
  | _ => cases he

theorem chunks_cons : chunks t (a :: xs) = chunks t [a] ++ chunks t xs := by
  rw [chunks, chunks, chunks, accessesBy, accessesBy, accessesBy, ← List.filterMap_append, history,
    history, history, ← List.filterMap_append, List.singleton_append]

theorem lockers_cons : lockers (a :: xs) = lockers [a] ++ lockers xs := by
  rw [lockers, lockers, lockers, acquirers, acquirers, acquirers, ← List.filterMap_append, history,
    history, history, ← List.filterMap_append, List.singleton_append]

/-- How the place of a thread counts what it has done. -/
theorem Inv.counts (h : Inv s) (hr : race.Run s xs s') (t : Thread) :
    (s.pc t).done + (chunks t xs).length = (s'.pc t).done ∧
      (s.pc t).entered + (lockers xs).count t = (s'.pc t).entered := by
  induction hr with
  | refl => exact ⟨rfl, rfl⟩
  | @stepL s a u xs s' hs _ ih =>
    obtain ⟨hdone, hentered⟩ := ih (inv_step hs h)
    rw [chunks_cons, lockers_cons, List.length_append, List.count_append]
    rcases moves_step hs h t with ⟨he, hne⟩ | hmove
    · obtain ⟨hchunks, hlockers, -⟩ := event_of_thread_ne hne
      rw [hchunks, hlockers, ← hdone, ← hentered, he]
      simp
    · have hdone' := moves_done hmove
      have hentered' := moves_entered hmove
      omega

/-- A thread that has released the mutex does not come back. -/
theorem Inv.released (h : Inv s) (hr : race.Run s xs s') :
    (s'.pc t).left ≤ (s.pc t).left ∧
      (.release t ∈ history xs → (s'.pc t).left ≤ 1) := by
  induction hr with
  | refl => exact ⟨le_rfl, nofun⟩
  | @stepL s a u xs s' hs _ ih =>
    obtain ⟨hle, hrel⟩ := ih (inv_step hs h)
    rw [history_cons]
    rcases moves_step hs h t with ⟨he, hne⟩ | hmove
    · refine ⟨he ▸ hle, fun hmem => hrel ?_⟩
      rcases List.mem_append.mp hmem with hmem | hmem
      · exact absurd (Option.mem_toList.mp hmem) (event_of_thread_ne hne).2.2
      · exact hmem
    · refine ⟨hle.trans (moves_left hmove).le, fun hmem => ?_⟩
      rcases List.mem_append.mp hmem with hmem | hmem
      · exact hle.trans (moves_release hmove (Option.mem_toList.mp hmem))
      · exact hrel hmem

theorem Pc.done_of_left {p : Pc} (hv : p.Valid t) (h : p.left ≤ 1) : p.done = 100 := by
  cases p with
  | unlock => rfl
  | ret => rfl
  | returned value => rfl
  | absent => simp [Pc.left] at h
  | lock => simp [Pc.left] at h
  | write i | printf i wn =>
    simp only [Pc.Valid, Pc.left] at hv h
    omega

theorem Pc.entered_le (p : Pc) : p.entered ≤ 1 := by cases p <;> simp [Pc.entered]

theorem Pc.done_le {p : Pc} (hv : p.Valid t) : p.done ≤ 100 := by
  cases p with
  | write i => exact Nat.le_of_lt hv
  | printf i wn => exact hv
  | absent | lock => exact Nat.zero_le _
  | unlock | ret | returned value => exact le_rfl

theorem prefix_of_mem_chunks {c : List UInt8} (hc : c ∈ chunks t xs) : c <+: t.func.line := by
  simp only [chunks, accessesBy, history, List.mem_filterMap] at hc
  obtain ⟨e, ⟨a, -, ha⟩, he⟩ := hc
  cases a with
  | write u r =>
    obtain rfl := Option.some.inj ha
    obtain rfl | hne := eq_or_ne u t
    · obtain rfl : u.func.line.take r.accepted = c := by simpa using he
      exact List.take_prefix ..
    · simp [hne] at he
  | lock u | unlock u =>
    obtain rfl := Option.some.inj ha
    cases he
  | _ => cases ha

/-- The file is what the one that has the mutex first has written, and behind it what the other
has; who is followed by the other has made its hundred calls, and both have in a program that
returns 0. -/
theorem file_serial (hr : race.Run .start xs s) :
    s.file = (lockers xs).flatMap (fun t => (chunks t xs).flatten) ∧
      (lockers xs).Nodup ∧
      (∀ t, (chunks t xs).length ≤ 100 ∧ ∀ c ∈ chunks t xs, c <+: t.func.line) ∧
      (∀ t ∈ (lockers xs).dropLast, (chunks t xs).length = 100) ∧
      (s.main = .returned 0 → ∀ t, t ∈ lockers xs ∧ (chunks t xs).length = 100) := by
  have hinv : Inv s := inv_reachable ⟨.start, xs, rfl, hr⟩
  have hlocked : Locked none (history xs) s.lock := inv_start.locked hr
  have hdone (t : Thread) : (chunks t xs).length = (s.pc t).done :=
    (Nat.zero_add _).symm.trans (inv_start.counts hr t).1
  have hentered (t : Thread) : (lockers xs).count t = (s.pc t).entered :=
    (Nat.zero_add _).symm.trans (inv_start.counts hr t).2
  have hnodup : (lockers xs).Nodup := by
    rw [List.nodup_iff_count_le_one]
    intro t
    rw [hentered]
    exact Pc.entered_le _
  refine ⟨?_, hnodup, ?_, ?_, ?_⟩
  · calc s.file
        = (accesses (history xs)).flatMap Prod.snd := file_run hr
      _ = ((lockers xs).flatMap fun t => (chunks t xs).map (t, ·)).flatMap Prod.snd :=
          congrArg (List.flatMap Prod.snd) (hlocked.serial hnodup)
      _ = (lockers xs).flatMap fun t => (chunks t xs).flatten := by
          rw [List.flatMap_assoc]
          apply List.flatMap_congr
          intro t _
          rw [List.flatMap_map, List.flatten_eq_flatMap]
          rfl
  · intro t
    refine ⟨?_, fun c hc => prefix_of_mem_chunks hc⟩
    rw [hdone]
    exact Pc.done_le (hinv.valid t)
  · intro t ht
    rw [hdone]
    exact Pc.done_of_left (hinv.valid t) ((inv_start.released hr).2 (hlocked.released ht))
  · intro hm t
    have hpc := hinv.joined t (by rw [hm]; rfl)
    constructor
    · rw [← List.count_pos_iff, hentered, hpc]
      exact Nat.one_pos
    · rw [hdone, hpc]
      rfl

/-- The thread has written its line `k` times, and stands at `p`. -/
def Race.wrote (s : Race) (t : Thread) (k : ℕ) (p : Pc) (printed : List Line) : Race where
  lock := s.lock
  file := s.file ++ (List.replicate k t.func.line).flatten
  fdOpen := s.fdOpen
  pc := Function.update s.pc t p
  main := s.main
  printed := printed

theorem Race.wrote_wrote {k n : ℕ} {p q : Pc} {l l' : List Line} :
    (s.wrote t k p l).wrote t n q l' = s.wrote t (k + n) q l' := by
  simp [Race.wrote, ← List.replicate_append_replicate]

/-- A turn whose `write` is not cut short. -/
theorem run_turn {i : ℕ} (hi : i < 100) (hrun : s.Running) (hfd : s.fdOpen = true)
    (ht : s.pc t = .loop i) :
    ∃ xs printed, race.Run s xs (s.wrote t 1 (.loop (i + 1)) printed) := by
  rw [Pc.loop, if_pos hi] at ht
  let n := t.func.line.length
  let s₁ : Race := { s.setPc t (.printf i (.ok n)) with file := s.file ++ t.func.line.take n }
  have hwrite : race.Step s (.write t (.count n le_rfl)) s₁ :=
    .write hrun ht (.count n le_rfl) fun he => absurd (he ▸ hfd) nofun
  have ht₁ : s₁.pc t = .printf i (.ok n) := Function.update_self ..
  have hprintf : race.Step s₁ (.printf t) ((s₁.print (.wrote t n)).setPc t (.loop (i + 1))) :=
    .printf (s := s₁) hrun ht₁
  have hend : (s₁.print (.wrote t n)).setPc t (.loop (i + 1)) =
      s.wrote t 1 (.loop (i + 1)) (s.printed ++ [.wrote t n]) := by
    simp [s₁, n, Race.wrote, Race.print, Race.setPc]
  rw [hend] at hprintf
  exact ⟨_, _, .stepL hwrite (.stepL hprintf .refl)⟩

/-- The turns that a thread has left, with nobody else running. -/
theorem run_turns {i k : ℕ} (hk : i + k = 100) (hrun : s.Running) (hfd : s.fdOpen = true)
    (ht : s.pc t = .loop i) : ∃ xs printed, race.Run s xs (s.wrote t k .unlock printed) := by
  induction k generalizing i s with
  | zero =>
    have hend : s.wrote t 0 .unlock s.printed = s := by
      have hloop : Pc.loop i = .unlock := if_neg (by omega)
      have hpc : Function.update s.pc t .unlock = s.pc := by
        rw [← hloop, ← ht, Function.update_eq_self]
      simp [Race.wrote, hpc]
    refine ⟨[], s.printed, ?_⟩
    rw [hend]
    exact .refl
  | succ k ih =>
    obtain ⟨xs, l, hturn⟩ := run_turn (by omega) hrun hfd ht
    obtain ⟨ys, l', hrest⟩ := ih (i := i + 1) (s := s.wrote t 1 (.loop (i + 1)) l) (by omega) hrun
      hfd (Function.update_self ..)
    rw [Race.wrote_wrote, Nat.add_comm 1 k] at hrest
    exact ⟨_, l', hturn.append hrest⟩

/-- A thread that finds the mutex free. -/
theorem run_thread (hrun : s.Running) (hfd : s.fdOpen = true) (ht : s.pc t = .lock)
    (hl : s.lock = none) :
    ∃ xs printed, race.Run s xs (s.wrote t 100 (.returned t.func.value) printed) := by
  let s₁ : Race := { s.setPc t (.loop 0) with lock := some t }
  have hlock : race.Step s (.lock t) s₁ := .lock hrun ht hl
  obtain ⟨xs, l, hturns⟩ := run_turns (s := s₁) (Nat.zero_add 100) hrun hfd
    (Function.update_self ..)
  let s₂ : Race := { (s₁.wrote t 100 .unlock l).setPc t .ret with lock := none }
  have hunlock : race.Step (s₁.wrote t 100 .unlock l) (.unlock t) s₂ :=
    .unlock hrun (Function.update_self ..)
  have hret : race.Step s₂ (.ret t) (s₂.setPc t (.returned t.func.value)) :=
    .ret hrun (Function.update_self ..)
  have hend : s₂.setPc t (.returned t.func.value) =
      s.wrote t 100 (.returned t.func.value) l := by
    simp [s₂, s₁, Race.wrote, Race.setPc, hl]
  rw [hend] at hret
  exact ⟨_, l, .stepL hlock (hturns.append (.stepL hunlock (.stepL hret .refl)))⟩

/-- The threads are created, and thread 2 has the mutex first. -/
theorem run_both : ∃ xs s, race.Run .start xs s ∧ s.main = .returned 0 ∧
    s.file = (List.replicate 100 t2s).flatten ++ (List.replicate 100 t1s).flatten := by
  obtain ⟨s, hs⟩ : ∃ s, s = ((((Race.start.completed .openFile).completed .malloc).completed
    .mutexInit).completed .create2).completed .create1 := ⟨_, rfl⟩
  have hsetup : race.Run .start (List.replicate 5 .main) s := by
    rw [hs]
    exact .stepL (.setup rfl) (.stepL (.setup rfl) (.stepL (.setup rfl) (.stepL (.setup rfl)
      (.stepL (.setup rfl) .refl))))
  have hmain : s.main = .join .thread1 := by rw [hs]; rfl
  have hrun : s.Running := by simp [Race.Running, hmain]
  have hpc : s.pc .thread1 = .lock ∧ s.pc .thread2 = .lock := by rw [hs]; exact ⟨rfl, rfl⟩
  have hfree : s.lock = none ∧ s.fdOpen = true ∧ s.file = [] := by rw [hs]; exact ⟨rfl, rfl, rfl⟩
  obtain ⟨xs, l, hfirst⟩ := run_thread hrun hfree.2.1 hpc.2 hfree.1
  obtain ⟨ys, l', hsecond⟩ := run_thread (t := .thread1)
    (s := s.wrote .thread2 100 (.returned 0x22) l) hrun hfree.2.1 hpc.1 hfree.1
  refine ⟨_, _, hsetup.append (hfirst.append (hsecond.append
    (.stepL (.join hmain rfl) (.stepL (.printfMain rfl) (.stepL (.join rfl rfl)
      (.stepL (.printfMain rfl) (.stepL (.close rfl) .refl))))))), rfl, ?_⟩
  change (s.file ++ _) ++ _ = _
  rw [hfree.2.2]
  rfl

theorem file_serial_both : ∃ xs s, race.Run .start xs s ∧ s.main = .returned 0 ∧
    s.file = (List.replicate 100 t2s).flatten ++ (List.replicate 100 t1s).flatten ∧
    s.file = (lockers xs).flatMap (fun t => (chunks t xs).flatten) ∧
    ∀ t, t ∈ lockers xs ∧ (chunks t xs).length = 100 := by
  obtain ⟨xs, s, hr, hmain, hlines⟩ := run_both
  obtain ⟨hfile, -, -, -, hall⟩ := file_serial hr
  exact ⟨xs, s, hr, hmain, hlines, hfile, hall hmain⟩

end UnixCodes.WriteRace
