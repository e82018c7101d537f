import UnixCodes.ThreadPool.Ledger

/-! Every added task runs exactly once, and the joins wait for all of them. -/
namespace UnixCodes.ThreadPool

open Transition

variable {F A : Type} {W P : ℕ} {s t : State F A W P} {act : Action W P} {l : List Addr} {w : Fin W}

def Exited (s : State F A W P) (w : Fin W) : Prop := (s.workers w).pc = .exited

/-- All the joins of `release_thread_poll` have returned. -/
def Joined (s : State F A W P) : Prop :=
  s.release = .joining (maxWorker W) ∨ s.release = .released

structure Drain (s : State F A W P) : Prop where
  stopped : ∀ w, Exited s w → s.pool.stop = true
  empty : (∀ w, Exited s w) → s.pool.queue = none
  joined : ∀ i, s.release = .joining i → ∀ w : Fin W, w.val < i → Exited s w
  released : s.release = .released → ∀ w : Fin W, w.val < maxWorker W → Exited s w

theorem wake_exited {V : Finset (Fin W)} : Exited (s.wake V) w ↔ Exited s w := by
  rcases wake_pc (s := s) (w := w) (V := V) with h | ⟨h, h'⟩
  · simp [Exited, h]
  · simp [Exited, h, h']

theorem exited_setWorker {w' : Fin W} {k : Worker} (hk : k.pc ≠ .exited)
    (hw : (s.workers w').pc ≠ .exited) : Exited (s.setWorker w' k) w ↔ Exited s w := by
  by_cases h : w = w'
  · subst h
    simp [Exited, State.setWorker, hk, hw]
  · simp [Exited, State.setWorker, h]

theorem step_stop (hs : Step s act t) (h : s.pool.stop = true) : t.pool.stop = true := by
  cases hs with
  | push => exact Pool.addTask_stop.trans h
  | test => exact threadPoolItem_stop.trans h
  | setStop => rfl
  | _ => exact h

theorem step_exited (hs : Step s act t) (h : Exited s w) : Exited t w := by
  cases hs with
  | signal => exact wake_exited.mpr h
  | spurious => exact wake_exited.mpr h
  | broadcast => exact (wake_exited (s := s)).mpr h
  | @test w' hw =>
    have hne : w ≠ w' := by
      rintro rfl
      simp_all [Exited]
    simpa [Exited, State.setWorker, hne] using h
  | skip hw _ => exact (exited_setWorker (by simp) (by simp [hw])).mpr h
  | call hw _ => exact (exited_setWorker (s := s) (by simp) (by simp [hw])).mpr h
  | finish hw _ _ => exact (exited_setWorker (s := s) (by simp) (by simp [hw])).mpr h
  | _ => exact h

/-- A worker that has just left found `stop` set and the queue empty. -/
theorem exited_of_step (hs : Step s act t) (h : Exited t w) :
    Exited s w ∨ (t.pool.stop = true ∧ t.pool.queue = none) := by
  cases hs with
  | signal => exact Or.inl (wake_exited.mp h)
  | spurious => exact Or.inl (wake_exited.mp h)
  | broadcast => exact Or.inl ((wake_exited (s := s)).mp h)
  | @test w' hw =>
    by_cases hne : w = w'
    · subst hne
      simp only [Exited, State.setWorker, Function.update_self] at h
      exact Or.inr (threadPoolItem_exited h)
    · exact Or.inl (by simpa [Exited, State.setWorker, hne] using h)
  | skip hw _ => exact Or.inl ((exited_setWorker (by simp) (by simp [hw])).mp h)
  | call hw _ => exact Or.inl ((exited_setWorker (s := s) (by simp) (by simp [hw])).mp h)
  | finish hw _ _ => exact Or.inl ((exited_setWorker (s := s) (by simp) (by simp [hw])).mp h)
  | _ => exact Or.inl h

theorem step_queue (hs : Step s act t) (h : s.pool.queue = none) :
    t.pool.queue = none ∨ ∃ c task, act = .push c ∧ s.adding c = .filled task := by
  cases hs with
  | push hc => exact Or.inr ⟨_, _, rfl, hc⟩
  | test => exact Or.inl (threadPoolItem_queue h)
  | _ => exact Or.inl h

theorem drain_initial (h : Initial s) : Drain s := by
  obtain ⟨hp, hw, hc, hr, ha, he⟩ := h
  refine ⟨?_, ?_, ?_, ?_⟩ <;> simp [hp, hr, hw, Exited]

/-- The last worker to leave is not a caller of `add_task`, and no external caller is left. -/
theorem drain_step (hW : 1 ≤ W) (hs : Step s act t) (hok : ExternalBeforeStop s act)
    (hl : Ledger s l) (hd : Drain s) : Drain t := by
  have hmono : ∀ w, Exited s w → Exited t w := fun w => step_exited hs
  refine ⟨?_, ?_, ?_, ?_⟩
  · intro w hw
    rcases exited_of_step hs hw with hw | ⟨hstop, -⟩
    · exact step_stop hs (hd.stopped w hw)
    · exact hstop
  · intro hall
    by_cases hold : ∀ w, Exited s w
    · rcases step_queue hs (hd.empty hold) with hq | ⟨c, task, rfl, hc⟩
      · exact hq
      · exfalso
        cases c with
        | inl p =>
          have hrun := hok p rfl
          simp [hd.stopped ⟨0, hW⟩ (hold _)] at hrun
        | inr w =>
          have hrun := hl.inTask w (by simp [hc])
          have hx := hold w
          simp [Exited, hrun] at hx
    · obtain ⟨w, hw⟩ := not_forall.mp hold
      rcases exited_of_step hs (hall w) with h | ⟨-, hq⟩
      · exact absurd h hw
      · exact hq
  · intro i hr w hw
    cases hs with
    | @join j hr' hi v hv hx =>
      obtain rfl := ReleasePc.joining.inj hr
      by_cases hlt : w.val < j
      · exact hd.joined j hr' w hlt
      · have hvw : v = w := Fin.ext (by omega)
        exact hvw ▸ hx
    | broadcast hr' =>
      obtain rfl := ReleasePc.joining.inj hr
      omega
    | setStop hr' => simp at hr
    | destroy hr' hi => simp at hr
    | _ => exact hmono w (hd.joined i hr w hw)
  · intro hr w hw
    cases hs with
    | join hr' => simp at hr
    | broadcast hr' => simp at hr
    | setStop hr' => simp at hr
    | destroy hr' hi => exact hd.joined _ hr' w (by omega)
    | _ => exact hmono w (hd.released hr w hw)

theorem drain_reachable (hW : 1 ≤ W)
    (h : ((system F A W P).restrict ExternalBeforeStop).Reachable s) : Drain s := by
  apply System.reachable_induction (fun _ => drain_initial) ?_ h
  rintro s a t hr ⟨hok, hs⟩ hd
  obtain ⟨l, hl⟩ := ledger_reachable (System.restrict_reachable hr)
  exact drain_step hW hs hok hl hd

theorem exited_of_joined (hW : W ≤ 65535) (hd : Drain s) (hj : Joined s) (w : Fin W) :
    Exited s w := by
  have hmax : maxWorker W = W := Nat.mod_eq_of_lt (by omega)
  rcases hj with hj | hj
  · exact hd.joined _ hj w (by omega)
  · exact hd.released hj w (by omega)

/-- A task is queued once, held by one worker, or has run once; after the joins only the last. -/
theorem exactly_once (hW : 1 ≤ W) (hW' : W ≤ 65535)
    (h : ((system F A W P).restrict ExternalBeforeStop).Reachable s) :
    (∃ l, s.pool.Queued l ∧ ∀ task, l.count task + held s task + s.executed.count task =
      if task ∈ s.added then 1 else 0) ∧
    (Joined s → ∀ task ∈ s.added, s.executed.count task = 1) := by
  obtain ⟨l, hl⟩ := ledger_reachable (System.restrict_reachable h)
  have hd := drain_reachable hW h
  have hone : ∀ task ∈ s.added, s.added.count task = 1 := by
    intro task ht
    have hpos := List.count_pos_iff.mpr ht
    have := hl.added_le_one task
    omega
  refine ⟨⟨l, hl.queued, ?_⟩, ?_⟩
  · intro task
    rw [hl.balance task]
    split
    · exact hone task ‹_›
    · exact List.count_eq_zero.mpr ‹_›
  · intro hj task ht
    have hx := exited_of_joined hW' hd hj
    have hempty : l = [] := hl.queued.linked.head_eq_none.mp (hd.empty hx)
    have hheld : held s task = 0 := by
      apply Family.count_eq_zero.mpr
      intro w hw
      have := hx w
      simp_all [Exited, Holds]
    have := hl.balance task
    rw [hone task ht, hempty, hheld] at this
    simpa using this

/-- One worker, one external task, and a second task that the first adds after `stop` is set. -/
theorem exactly_once_selfAdding :
    ∃ s : State Unit Unit 1 1, ((system Unit Unit 1 1).restrict ExternalBeforeStop).Reachable s ∧
      Joined s ∧ s.added = [0, 1] ∧ ∀ task ∈ s.added, s.executed.count task = 1 := by
  have inside {s : State Unit Unit 1 1} {a : Action 1 1} (h : ∀ p, a ≠ .push (.inl p)) :
      ExternalBeforeStop s a := fun p hp => (h p hp).elim
  let s₀ : State Unit Unit 1 1 :=
    ⟨⟨fun _ => none, none, none, false⟩, fun _ => ⟨.lock, none⟩, fun _ => .outside, .outside, [],
      []⟩
  have hr : ∃ s, ((system Unit Unit 1 1).restrict ExternalBeforeStop).Reachable s ∧
      Joined s ∧ s.added = [0, 1] := by
    refine ⟨_, ⟨s₀, _, ⟨rfl, fun _ => rfl, fun _ => rfl, rfl, rfl, rfl⟩,
      .stepL ⟨inside (by simp), .malloc (c := .inl 0) 0 () () trivial rfl rfl⟩ <|
      .stepL ⟨fun _ _ => rfl, .push (c := .inl 0) rfl⟩ <|
      .stepL ⟨inside (by simp),
        .signal (c := .inl 0) ∅ rfl (wakes_of_none_blocked fun 0 => nofun)⟩ <|
      .stepL ⟨inside (by simp), .test (w := 0) (.inl rfl)⟩ <|
      .stepL ⟨inside (by simp), .call (w := 0) rfl rfl⟩ <|
      .stepL ⟨inside (by simp), .setStop rfl⟩ <|
      .stepL ⟨inside (by simp), .malloc (c := .inr 0) 1 () () rfl rfl rfl⟩ <|
      .stepL ⟨inside (by simp), .push (c := .inr 0) rfl⟩ <|
      .stepL ⟨inside (by simp),
        .signal (c := .inr 0) ∅ rfl (wakes_of_none_blocked fun 0 => nofun)⟩ <|
      .stepL ⟨inside (by simp), .finish (w := 0) rfl rfl rfl⟩ <|
      .stepL ⟨inside (by simp), .test (w := 0) (.inl rfl)⟩ <|
      .stepL ⟨inside (by simp), .call (w := 0) rfl rfl⟩ <|
      .stepL ⟨inside (by simp), .finish (w := 0) rfl rfl rfl⟩ <|
      .stepL ⟨inside (by simp), .test (w := 0) (.inl rfl)⟩ <|
      .stepL ⟨inside (by simp), .broadcast rfl⟩ <|
      .stepL ⟨inside (by simp), .join (w := 0) rfl (by decide) rfl rfl⟩ .refl⟩, .inl rfl, rfl⟩
  obtain ⟨s, hs, hj, ha⟩ := hr
  exact ⟨s, hs, hj, ha, (exactly_once (by decide) (by decide) hs).2 hj⟩

end UnixCodes.ThreadPool
