import Mathlib.Data.List.Perm.Basic
import UnixCodes.ThreadPool.Model

/-! `create_thread_pool` and the sequence of calls of `release_thread_poll`: what is acquired, which
threads are created and which are joined. -/
namespace UnixCodes.ThreadPool

inductive Resource
  | pool
  | threads
  | cond
  | lock
  | task (a : Addr)
  deriving DecidableEq

/-- A thread is named after the call of `pthread_create` that made it; `none` is a zeroed slot. -/
inductive Event
  | acquire (r : Resource)
  | release (r : Resource)
  | create (thread : ℕ)
  | join (slot : Option ℕ)
  | setStop
  | broadcast
  deriving DecidableEq

/-- Which calls of `create_thread_pool` succeed. -/
structure CreateAnswers where
  mallocPool : Bool
  mallocThreads : Bool
  condInit : Bool
  mutexInit : Bool
  pthreadCreate : ℕ → Bool

/-- The fields of `ThreadPool` that `create_thread_pool` sets and nobody changes. -/
structure Handle where
  maxWorker : ℕ
  noactWorkder : ℕ
  threads : ℕ → Option ℕ

/-- The loop over `pthread_create`; a call that fails is reported and its slot stays zeroed. -/
def createLoop (k : CreateAnswers) (workers : ℕ) : List Event :=
  (List.range workers).flatMap fun i => if k.pthreadCreate i then [.create i] else []

/-- The loop counts to the argument, the pool keeps it in a `uint16_t`. -/
def createThreadPool (k : CreateAnswers) (workers : ℕ) : List Event × Option Handle :=
  if k.mallocPool = false then ([], none)
  else if k.mallocThreads = false then ([.acquire .pool, .release .pool], none)
  else if k.condInit = false then
    ([.acquire .pool, .acquire .threads, .release .pool], none)
  else if k.mutexInit = false then
    ([.acquire .pool, .acquire .threads, .acquire .cond, .release .pool], none)
  else
    ([.acquire .pool, .acquire .threads, .acquire .cond, .acquire .lock] ++ createLoop k workers,
      some
        { maxWorker := maxWorker workers
          noactWorkder := maxWorker workers
          threads := fun i => if i < workers ∧ k.pthreadCreate i then some i else none })

/-- What follows the joins. -/
def destroyPool : List Event :=
  [.release .cond, .release .lock, .release .threads, .release .pool]

def releaseThreadPoll (tp : Handle) : List Event :=
  [.setStop, .broadcast] ++ (List.range tp.maxWorker).map (fun i => .join (tp.threads i)) ++
    destroyPool

def created (log : List Event) : List ℕ :=
  log.filterMap fun e => match e with
    | .create thread => some thread
    | _ => none

def joined (log : List Event) : List (Option ℕ) :=
  log.filterMap fun e => match e with
    | .join slot => some slot
    | _ => none

/-- The threads of the one log are joined in the other, each once and nothing else, and no join
comes after something has been destroyed or freed. -/
structure JoinsCreated (creation release : List Event) : Prop where
  exact : (joined release).Perm ((created creation).map some)
  before : ∀ xs r ys, release = xs ++ .release r :: ys → joined ys = []

variable {k : CreateAnswers} {workers : ℕ} {creation : List Event} {tp : Handle}

@[simp] theorem created_append {xs ys : List Event} :
    created (xs ++ ys) = created xs ++ created ys := by simp [created]

@[simp] theorem joined_append {xs ys : List Event} :
    joined (xs ++ ys) = joined xs ++ joined ys := by simp [joined]

theorem created_createLoop :
    created (createLoop k workers) = (List.range workers).filter k.pthreadCreate := by
  unfold createLoop
  induction List.range workers with
  | nil => rfl
  | cons i l ih =>
    rw [List.flatMap_cons, created_append, ih, List.filter_cons]
    cases k.pthreadCreate i <;> rfl

/-- What a returned pool says about the call that has returned it. -/
theorem createThreadPool_some (h : createThreadPool k workers = (creation, some tp)) :
    creation = [.acquire .pool, .acquire .threads, .acquire .cond, .acquire .lock] ++
        createLoop k workers ∧
      tp.maxWorker = maxWorker workers ∧
      ∀ i, tp.threads i = if i < workers ∧ k.pthreadCreate i then some i else none := by
  unfold createThreadPool at h
  split at h
  · cases h
  · split at h
    · cases h
    · split at h
      · cases h
      · split at h
        · cases h
        · cases h
          exact ⟨rfl, rfl, fun _ => rfl⟩

theorem joined_releaseThreadPoll :
    joined (releaseThreadPoll tp) = (List.range tp.maxWorker).map tp.threads := by
  unfold releaseThreadPoll
  rw [joined_append, joined_append]
  have hloop (l : List ℕ) : joined (l.map fun i => .join (tp.threads i)) = l.map tp.threads := by
    induction l with
    | nil => rfl
    | cons i l ih =>
      rw [List.map_cons, List.map_cons, ← ih]
      rfl
  rw [hloop]
  simp [joined, destroyPool]

/-- The joins are over when the first resource is released. -/
theorem releaseThreadPoll_before {xs ys : List Event} {r : Resource}
    (h : releaseThreadPoll tp = xs ++ .release r :: ys) : joined ys = [] := by
  unfold releaseThreadPoll at h
  rcases List.append_eq_append_iff.mp h with ⟨as, rfl, hd⟩ | ⟨as, hh, hd⟩
  · have hsub : ys ⊆ destroyPool := by
      rw [hd]
      exact fun e he => by simp [he]
    apply List.filterMap_eq_nil_iff.mpr
    intro e he
    have hmem := hsub he
    simp only [destroyPool, List.mem_cons, List.not_mem_nil, or_false] at hmem
    rcases hmem with rfl | rfl | rfl | rfl <;> rfl
  · rcases as with _ | ⟨e, as⟩
    · simp only [List.nil_append] at hd
      obtain ⟨-, rfl⟩ := List.cons.inj hd
      rfl
    · obtain ⟨rfl, -⟩ := List.cons.inj hd
      have hmem : Event.release r ∈ [.setStop, .broadcast] ++
          (List.range tp.maxWorker).map (fun i => Event.join (tp.threads i)) := by simp [hh]
      simp at hmem

/-- `release_thread_poll` joins what `create_thread_pool` has created exactly if the calls of
`pthread_create` that succeed are those below the `uint16_t` value of the argument. -/
theorem joinsCreated_iff (h : createThreadPool k workers = (creation, some tp)) :
    JoinsCreated creation (releaseThreadPoll tp) ↔
      ∀ i < workers, k.pthreadCreate i = true ↔ i < workers % 2 ^ 16 := by
  obtain ⟨rfl, hmax, hslot⟩ := createThreadPool_some h
  have hcreated : created ([.acquire .pool, .acquire .threads, .acquire .cond, .acquire .lock] ++
      createLoop k workers) = (List.range workers).filter k.pthreadCreate := by
    rw [created_append, created_createLoop]
    rfl
  have hle : maxWorker workers ≤ workers := Nat.mod_le _ _
  constructor
  · rintro ⟨hperm, -⟩ i hi
    rw [joined_releaseThreadPoll, hcreated, hmax] at hperm
    constructor
    · intro hok
      have hmem : some i ∈ ((List.range workers).filter k.pthreadCreate).map some := by
        simp [hi, hok]
      obtain ⟨j, hj, hs⟩ := List.mem_map.mp (hperm.mem_iff.mpr hmem)
      rw [hslot] at hs
      split at hs
      · cases hs
        exact List.mem_range.mp hj
      · cases hs
    · intro hlt
      have hmem : tp.threads i ∈ (List.range (maxWorker workers)).map tp.threads :=
        List.mem_map_of_mem (List.mem_range.mpr hlt)
      obtain ⟨j, hj, hs⟩ := List.mem_map.mp (hperm.mem_iff.mp hmem)
      rw [hslot] at hs
      split at hs
      · rename_i hok
        exact hok.2
      · cases hs
  · intro hall
    refine ⟨?_, fun xs r ys => releaseThreadPoll_before⟩
    rw [joined_releaseThreadPoll, hcreated, hmax]
    have hslots : (List.range (maxWorker workers)).map tp.threads =
        (List.range (maxWorker workers)).map some := by
      apply List.map_congr_left
      intro i hi
      have hlt := List.mem_range.mp hi
      rw [hslot, if_pos ⟨by omega, (hall i (by omega)).mpr hlt⟩]
    rw [hslots]
    apply List.Perm.map
    apply (List.perm_ext_iff_of_nodup List.nodup_range (List.nodup_range.filter _)).mpr
    intro i
    rw [List.mem_filter, List.mem_range, List.mem_range]
    constructor
    · intro hlt
      exact ⟨by omega, (hall i (by omega)).mpr hlt⟩
    · rintro ⟨hi, hok⟩
      exact (hall i hi).mp hok

/-- Two workers are asked for and the second call of `pthread_create` fails. -/
def secondFails : CreateAnswers := ⟨true, true, true, true, fun i => i = 0⟩

theorem joinsCreated_iff_secondFails : ∃ creation tp,
    createThreadPool secondFails 2 = (creation, some tp) ∧ created creation = [0] ∧
      (JoinsCreated creation (releaseThreadPoll tp) ↔
        ∀ i < 2, secondFails.pthreadCreate i = true ↔ i < 2 % 2 ^ 16) :=
  ⟨_, _, rfl, rfl, joinsCreated_iff rfl⟩

/-- The slot of the thread that does not exist is joined. -/
theorem secondFails_joined : ¬ ∀ (k : CreateAnswers) (workers : ℕ) (creation : List Event)
    (tp : Handle), createThreadPool k workers = (creation, some tp) →
      JoinsCreated creation (releaseThreadPoll tp) := by
  intro hall
  have hperm := (hall secondFails 2 _ _ rfl).exact
  have hmem : none ∈ (created (createThreadPool secondFails 2).1).map some :=
    hperm.mem_iff.mp (by decide)
  simp at hmem

end UnixCodes.ThreadPool
