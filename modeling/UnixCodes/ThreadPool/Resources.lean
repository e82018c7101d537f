import UnixCodes.ThreadPool.Create

/-! The resources of a pool over its whole life: `create_thread_pool`, every interleaving of its
threads, and `release_thread_poll`. -/
namespace UnixCodes.ThreadPool

open Transition

variable {F A : Type} {W P : ℕ} {k : CreateAnswers}

/-- A pool in use, with what has been acquired and released since `create_thread_pool` began. -/
structure Life (F A : Type) (W P : ℕ) where
  state : State F A W P
  log : List Event

/-- The events of a step; no other step allocates, frees or destroys anything. -/
def events (k : CreateAnswers) (s t : State F A W P) : Action W P → List Event
  | .malloc c =>
    match t.adding c with
    | .filled task => [.acquire (.task task)]
    | _ => []
  | .setStop => [.setStop]
  | .broadcast => [.broadcast]
  | .join =>
    match s.release with
    | .joining i => [.join (if k.pthreadCreate i then some i else none)]
    | _ => []
  | .destroy => destroyPool
  | _ => []

/-- A worker that `pthread_create` has not made does nothing. -/
def Action.Runs (k : CreateAnswers) : Action W P → Prop
  | .test w | .call w | .finish w => k.pthreadCreate w = true
  | _ => True

/-- The join of a zeroed slot has no thread to wait for. -/
inductive Life.Step (k : CreateAnswers) : Life F A W P → Action W P → Life F A W P → Prop
  | step {s t : State F A W P} {a : Action W P} {log : List Event} (h : ThreadPool.Step s a t)
      (hruns : a.Runs k) : Step k ⟨s, log⟩ a ⟨t, log ++ events k s t a⟩
  | joinNone {s : State F A W P} {i : ℕ} {log : List Event} (hr : s.release = .joining i)
      (hi : i < maxWorker W) (hnone : k.pthreadCreate i = false) :
      Step k ⟨s, log⟩ .join ⟨{ s with release := .joining (i + 1) }, log ++ [.join none]⟩

def life (F A : Type) (W P : ℕ) (k : CreateAnswers) : System (Life F A W P) (Action W P) where
  Initial p := Initial p.state ∧ ∃ tp, createThreadPool k W = (p.log, some tp)
  Step := Life.Step k

/-- Whatever has been acquired has been released once. -/
def Balanced (log : List Event) : Prop :=
  ∀ r, .acquire r ∈ log → log.count (.release r) = 1

/-- A call of `create_thread_pool` that fails has failed in `malloc`. -/
def CreateAnswers.Allocates (k : CreateAnswers) : Prop :=
  k.mallocPool = true → k.mallocThreads = true → k.condInit = true ∧ k.mutexInit = true

variable {p q : Life F A W P} {a : Action W P} {xs : List (Action W P)} {workers : ℕ}
  {creation : List Event}

/-- The error paths give the pool back and keep the thread array and the condition variable. -/
theorem balanced_null (h : createThreadPool k workers = (creation, none)) :
    Balanced creation ↔ k.Allocates := by
  have hleak {log : List Event} (hacq : .acquire .threads ∈ log)
      (hrel : log.count (.release .threads) = 0) : ¬ Balanced log := by
    intro hb
    have := hb .threads hacq
    omega
  unfold createThreadPool at h
  unfold CreateAnswers.Allocates
  split at h
  · rename_i hpool
    cases h
    simp [Balanced, hpool]
  · split at h
    · rename_i hthreads
      cases h
      simp [Balanced, hthreads]
    · rename_i hpool hthreads
      rw [Bool.not_eq_false] at hpool hthreads
      split at h
      · rename_i hcond
        cases h
        apply iff_of_false (hleak (by decide) (by decide))
        simp [hpool, hthreads, hcond]
      · split at h
        · rename_i hmutex
          cases h
          apply iff_of_false (hleak (by decide) (by decide))
          simp [hpool, hthreads, hmutex]
        · cases h

/-- What has been released at a state is decided by whether `release_thread_poll` has returned. -/
structure Tracks (p : Life F A W P) : Prop where
  open_ : p.state.release ≠ .released → ∀ r, .release r ∉ p.log
  closed : p.state.release = .released →
    ∀ r, p.log.count (.release r) = destroyPool.count (.release r)

theorem mem_createLoop {e : Event} (h : e ∈ createLoop k workers) : ∃ i, e = .create i := by
  obtain ⟨i, -, hi⟩ := List.mem_flatMap.mp h
  split at hi
  · exact ⟨i, List.mem_singleton.mp hi⟩
  · cases hi

/-- Nothing is released, and no task acquired, on the way to a returned pool. -/
theorem creation_events {tp : Handle} (h : createThreadPool k workers = (creation, some tp)) :
    (∀ r, .release r ∉ creation) ∧ ∀ x, .acquire (.task x) ∉ creation := by
  obtain ⟨rfl, -⟩ := createThreadPool_some h
  constructor
  · intro r hr
    rcases List.mem_append.mp hr with hr | hr
    · simp at hr
    · obtain ⟨i, hi⟩ := mem_createLoop hr
      cases hi
  · intro x hx
    rcases List.mem_append.mp hx with hx | hx
    · simp at hx
    · obtain ⟨i, hi⟩ := mem_createLoop hx
      cases hi

theorem tracks_initial (h : (life F A W P k).Initial p) : Tracks p := by
  obtain ⟨hi, tp, hc⟩ := h
  refine ⟨fun _ => (creation_events hc).1, fun hr => ?_⟩
  rw [hi.2.2.2.1] at hr
  cases hr

/-- Only `destroy` releases, and it is the step to `released`. -/
theorem events_release {s t : State F A W P} (h : ThreadPool.Step s a t) :
    (t.release = .released ∧ s.release ≠ .released ∧ events k s t a = destroyPool) ∨
    ((t.release = .released ↔ s.release = .released) ∧ ∀ r, .release r ∉ events k s t a) := by
  cases h with
  | destroy hr hi => exact .inl ⟨rfl, by simp [hr], rfl⟩
  | malloc task f x hm hc hf =>
    refine .inr ⟨Iff.rfl, fun r hmem => ?_⟩
    simp [events, State.setAdding] at hmem
  | join hr hi hw hx =>
    refine .inr ⟨by simp [hr], fun r hmem => ?_⟩
    simp [events, hr] at hmem
  | setStop hr => exact .inr ⟨by simp [hr], fun r hmem => by simp [events] at hmem⟩
  | broadcast hr => exact .inr ⟨by simp [hr], fun r hmem => by simp [events] at hmem⟩
  | push | signal | spurious | test | skip | call | finish =>
    exact .inr ⟨Iff.rfl, fun r hmem => by simp [events] at hmem⟩

theorem Tracks.keep {log : List Event} {s t : State F A W P} {es : List Event}
    (h : Tracks ⟨s, log⟩) (hr : t.release = .released ↔ s.release = .released)
    (hes : ∀ r, .release r ∉ es) : Tracks ⟨t, log ++ es⟩ := by
  constructor
  · intro hne r hmem
    rcases List.mem_append.mp hmem with hmem | hmem
    · exact h.open_ (fun he => hne (hr.mpr he)) r hmem
    · exact hes r hmem
  · intro he r
    have hold := h.closed (hr.mp he) r
    dsimp only at hold ⊢
    rw [List.count_append, List.count_eq_zero.mpr (hes r), hold, Nat.add_zero]

theorem tracks_step (hs : Life.Step k p a q) (h : Tracks p) : Tracks q := by
  cases hs with
  | step hs hruns =>
    rcases events_release (k := k) hs with ⟨hq, hp, he⟩ | ⟨hr, hes⟩
    · refine ⟨fun hne => absurd hq hne, fun _ r => ?_⟩
      dsimp only
      rw [he, List.count_append, List.count_eq_zero.mpr (h.open_ hp r), Nat.zero_add]
    · exact h.keep hr hes
  | joinNone hr hi hnone => exact h.keep (by simp [hr]) (by simp)

/-- Tasks are acquired by `malloc` and by nothing else. -/
theorem acquires_step (hs : Life.Step k p a q) :
    (∃ x, .acquire (.task x) ∈ q.log) ↔ (∃ x, .acquire (.task x) ∈ p.log) ∨ ∃ c, a = .malloc c := by
  have hkeep {log es : List Event} (hes : ∀ x, Event.acquire (.task x) ∉ es) :
      (∃ x, .acquire (.task x) ∈ log ++ es) ↔ ∃ x, .acquire (.task x) ∈ log := by
    constructor
    · rintro ⟨x, hx⟩
      exact ⟨x, (List.mem_append.mp hx).resolve_right (hes x)⟩
    · rintro ⟨x, hx⟩
      exact ⟨x, List.mem_append_left es hx⟩
  cases hs with
  | joinNone => simp
  | @step s t a log hs hruns =>
    cases hs with
    | malloc task f x hm hc hf =>
      apply iff_of_true
      · refine ⟨task, List.mem_append_right _ ?_⟩
        simp [events, State.setAdding]
      · exact .inr ⟨_, rfl⟩
    | join hr hi hw hx => simpa using hkeep (by simp [events, hr])
    | destroy hr hi => simpa using hkeep (by simp [events, destroyPool])
    | push | signal | spurious | test | skip | call | finish | setStop | broadcast =>
      simpa using hkeep (by simp [events])

theorem acquires_run (h : (life F A W P k).Run p xs q) :
    (∃ x, .acquire (.task x) ∈ q.log) ↔
      (∃ x, .acquire (.task x) ∈ p.log) ∨ ∃ c, .malloc c ∈ xs := by
  induction h with
  | refl => simp
  | @stepL p a p' xs q hs _ ih =>
    rw [ih, acquires_step hs, or_assoc]
    apply or_congr_right
    constructor
    · rintro (⟨c, rfl⟩ | ⟨c, hc⟩)
      · exact ⟨c, List.mem_cons_self⟩
      · exact ⟨c, List.mem_cons_of_mem _ hc⟩
    · rintro ⟨c, hc⟩
      rcases List.mem_cons.mp hc with rfl | hc
      · exact .inl ⟨c, rfl⟩
      · exact .inr ⟨c, hc⟩

/-- No task is ever freed; the pool's own resources are. -/
theorem balanced_released (h : Tracks p) (hr : p.state.release = .released) :
    Balanced p.log ↔ ∀ x, .acquire (.task x) ∉ p.log := by
  have hcount := h.closed hr
  constructor
  · intro hb x hx
    have hone := hb (.task x) hx
    rw [hcount] at hone
    simp [destroyPool] at hone
  · intro hno r hmem
    rw [hcount]
    cases r with
    | task x => exact absurd hmem (hno x)
    | pool | threads | cond | lock => decide

/-- A call that returns NULL leaves nothing behind exactly if it has failed in `malloc`; a pool that
has been released leaves nothing behind exactly if no task was ever added. -/
theorem balanced_iff (k : CreateAnswers) :
    (∀ creation, createThreadPool k W = (creation, none) → (Balanced creation ↔ k.Allocates)) ∧
    ∀ (p₀ p : Life F A W P) (xs : List (Action W P)), (life F A W P k).Initial p₀ →
      (life F A W P k).Run p₀ xs p → p.state.release = .released →
        (Balanced p.log ↔ ∀ c, .malloc c ∉ xs) := by
  refine ⟨fun creation => balanced_null, ?_⟩
  intro p₀ p xs hi hrun hr
  have htracks : Tracks p :=
    System.run_invariant (fun _ _ _ => tracks_step) hrun (tracks_initial hi)
  obtain ⟨tp, hc⟩ := hi.2
  have hacq := acquires_run hrun
  have hnone : ¬ ∃ x, .acquire (.task x) ∈ p₀.log := by
    rintro ⟨x, hx⟩
    exact (creation_events hc).2 x hx
  rw [or_iff_right hnone] at hacq
  rw [balanced_released htracks hr, ← not_exists, ← not_exists, hacq]

def allSucceed : CreateAnswers := ⟨true, true, true, true, fun _ => true⟩

theorem live {s t : State F A W P} {log : List Event} (h : ThreadPool.Step s a t)
    (hruns : a.Runs k) : (life F A W P k).Step ⟨s, log⟩ a ⟨t, log ++ events k s t a⟩ :=
  .step h hruns

/-- One worker runs one task, then the pool is released. -/
theorem oneTask_run : ∃ (p₀ p : Life Unit Unit 1 1) (xs : List (Action 1 1)),
    (life Unit Unit 1 1 allSucceed).Initial p₀ ∧ (life Unit Unit 1 1 allSucceed).Run p₀ xs p ∧
      p.state.release = .released ∧ p.state.executed = [0] ∧ .malloc (.inl 0) ∈ xs := by
  let s₀ : State Unit Unit 1 1 :=
    ⟨⟨fun _ => none, none, none, false⟩, fun _ => ⟨.lock, none⟩, fun _ => .outside, .outside, [],
      []⟩
  refine ⟨⟨s₀, _⟩, _, _, ⟨⟨rfl, fun _ => rfl, fun _ => rfl, rfl, rfl, rfl⟩, _, rfl⟩,
    .stepL (live (.malloc (c := .inl 0) 0 () () trivial rfl rfl) trivial) <|
    .stepL (live (.push (c := .inl 0) rfl) trivial) <|
    .stepL (live (.signal (c := .inl 0) ∅ rfl (wakes_of_none_blocked fun 0 => nofun)) trivial) <|
    .stepL (live (.test (w := 0) (.inl rfl)) rfl) <|
    .stepL (live (.call (w := 0) rfl rfl) rfl) <|
    .stepL (live (.finish (w := 0) rfl rfl rfl) rfl) <|
    .stepL (live (.setStop rfl) trivial) <|
    .stepL (live (.test (w := 0) (.inl rfl)) rfl) <|
    .stepL (live (.broadcast rfl) trivial) <|
    .stepL (live (.join (w := 0) rfl (by decide) rfl rfl) trivial) <|
    .stepL (live (.destroy rfl (by decide)) trivial) .refl, rfl, rfl, by simp⟩

theorem balanced_iff_oneTask : ∃ (p₀ p : Life Unit Unit 1 1) (xs : List (Action 1 1)),
    (life Unit Unit 1 1 allSucceed).Initial p₀ ∧ (life Unit Unit 1 1 allSucceed).Run p₀ xs p ∧
      p.state.release = .released ∧ p.state.executed = [0] ∧ .malloc (.inl 0) ∈ xs ∧
      (Balanced p.log ↔ ∀ c, .malloc c ∉ xs) := by
  obtain ⟨p₀, p, xs, hi, hrun, hr, hexec, hmem⟩ := oneTask_run
  exact ⟨p₀, p, xs, hi, hrun, hr, hexec, hmem, (balanced_iff allSucceed).2 p₀ p xs hi hrun hr⟩

/-- The node of the task that has run is still allocated when `release_thread_poll` returns. -/
theorem oneTask_leaks : ¬ ∀ (p₀ p : Life Unit Unit 1 1) (xs : List (Action 1 1)),
    (life Unit Unit 1 1 allSucceed).Initial p₀ → (life Unit Unit 1 1 allSucceed).Run p₀ xs p →
      p.state.release = .released → Balanced p.log := by
  intro hall
  obtain ⟨p₀, p, xs, hi, hrun, hr, -, hmem⟩ := oneTask_run
  obtain ⟨x, hx⟩ := (acquires_run hrun).mpr (.inr ⟨_, hmem⟩)
  have htracks : Tracks p :=
    System.run_invariant (fun _ _ _ => tracks_step) hrun (tracks_initial hi)
  exact (balanced_released htracks hr).mp (hall p₀ p xs hi hrun hr) x hx

end UnixCodes.ThreadPool
