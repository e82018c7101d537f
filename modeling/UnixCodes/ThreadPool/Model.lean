import Mathlib.Data.Fintype.Sum
import UnixCodes.Lib.Transition

/-! The worker pool of `apue/threadpool/main.c`: its queue in the heap, its critical sections, and
every interleaving of the threads that run them. -/
namespace UnixCodes.ThreadPool

abbrev Addr := ℕ

/-- `struct ThreadTask`; a NULL link is `none`. -/
structure Task (F A : Type) where
  func : F
  args : A
  prev : Option Addr
  next : Option Addr

/-- The fields of `ThreadPool` that `lock` guards, and the heap the queue's links live in. -/
structure Pool (F A : Type) where
  mem : Addr → Option (Task F A)
  queue : Option Addr
  queueTail : Option Addr
  stop : Bool

variable {F A : Type} {W P : ℕ}

namespace Pool

def setPrev (a : Addr) (p : Option Addr) (mem : Addr → Option (Task F A)) :
    Addr → Option (Task F A) :=
  Function.update mem a ((mem a).map fun k => { k with prev := p })

def setNext (a : Addr) (n : Option Addr) (mem : Addr → Option (Task F A)) :
    Addr → Option (Task F A) :=
  Function.update mem a ((mem a).map fun k => { k with next := n })

def next (p : Pool F A) (a : Addr) : Option Addr := (p.mem a).bind Task.next

def prev (p : Pool F A) (a : Addr) : Option Addr := (p.mem a).bind Task.prev

/-- What `malloc` and the four assignments before the lock leave behind. -/
def fill (p : Pool F A) (task : Addr) (func : F) (args : A) : Pool F A :=
  { p with mem := Function.update p.mem task (some ⟨func, args, none, none⟩) }

/-- The critical section of `add_task`. -/
def addTask (p : Pool F A) (task : Addr) : Pool F A :=
  match p.queueTail with
  | none => { p with queue := some task, queueTail := some task }
  | some tail =>
    { p with mem := setNext tail (some task) (setPrev task (some tail) p.mem)
             queueTail := some task }

/-- The dequeue of `thread_pool_item`, with the worker's `thread_task` before and after. With
`queue_tail` NULL nothing is assigned and the old `thread_task` stays. -/
def dequeue (p : Pool F A) (threadTask : Option Addr) : Pool F A × Option Addr :=
  match p.queueTail with
  | none => (p, threadTask)
  | some tail =>
    match p.prev tail with
    | none => ({ p with queueTail := none, queue := none }, some tail)
    | some y => ({ p with queueTail := some y, mem := setNext y none p.mem }, some tail)

end Pool

/-- Where a thread is in `add_task`: outside, past the assignments with its node in hand, or past
the unlock with the signal still to send. -/
inductive AddPc
  | outside
  | filled (task : Addr)
  | pushed
  deriving DecidableEq

/-- Where a worker is in `thread_pool_item`. `woken` has left the condition queue and waits for
the mutex inside `pthread_cond_wait`; `call` has released the lock after the dequeue. -/
inductive WorkerPc
  | lock
  | wait
  | woken
  | call
  | running
  | exited
  deriving DecidableEq

structure Worker where
  pc : WorkerPc
  threadTask : Option Addr

/-- The critical section of `thread_pool_item`, from the `while` test to the unlock or the wait. -/
def threadPoolItem (p : Pool F A) (k : Worker) : Pool F A × Worker :=
  if p.queue = none ∧ p.stop = false then (p, { k with pc := .wait })
  else if p.stop = true ∧ p.queue = none then (p, { k with pc := .exited })
  else ((p.dequeue k.threadTask).1, ⟨.call, (p.dequeue k.threadTask).2⟩)

/-- Where the caller of `release_thread_poll` is; `joining i` has returned from `i` joins. -/
inductive ReleasePc
  | outside
  | stopped
  | joining (i : ℕ)
  | released
  deriving DecidableEq

/-- A caller of `add_task`: an external thread or the task that a worker runs. -/
abbrev Caller (W P : ℕ) := Fin P ⊕ Fin W

/-- `added` and `executed` record the critical sections of `add_task` and the returns of tasks. -/
structure State (F A : Type) (W P : ℕ) where
  pool : Pool F A
  workers : Fin W → Worker
  adding : Caller W P → AddPc
  release : ReleasePc
  added : List Addr
  executed : List Addr

/-- The `uint16_t` field that bounds the join loop. -/
def maxWorker (W : ℕ) : ℕ := W % 2 ^ 16

namespace State

def setWorker (s : State F A W P) (w : Fin W) (k : Worker) : State F A W P :=
  { s with workers := Function.update s.workers w k }

def setAdding (s : State F A W P) (c : Caller W P) (a : AddPc) : State F A W P :=
  { s with adding := Function.update s.adding c a }

def wake (s : State F A W P) (V : Finset (Fin W)) : State F A W P :=
  { s with workers := fun w =>
      if w ∈ V ∧ (s.workers w).pc = .wait then { s.workers w with pc := .woken } else s.workers w }

/-- A worker calls `add_task` only from inside the task it runs. -/
def MayAdd (s : State F A W P) : Caller W P → Prop
  | .inl _ => True
  | .inr w => (s.workers w).pc = .running

def Blocked (s : State F A W P) (w : Fin W) : Prop := (s.workers w).pc = .wait

end State

inductive Action (W P : ℕ)
  | malloc (c : Caller W P)
  | push (c : Caller W P)
  | signal (c : Caller W P)
  | spurious (w : Fin W)
  | test (w : Fin W)
  | call (w : Fin W)
  | finish (w : Fin W)
  | setStop
  | broadcast
  | join
  | destroy

/-- The critical sections are atomic, everything between them interleaves. -/
inductive Step : State F A W P → Action W P → State F A W P → Prop
  | malloc {s c} (task : Addr) (func : F) (args : A) (hm : s.MayAdd c) (hc : s.adding c = .outside)
      (hfresh : s.pool.mem task = none) :
      Step s (.malloc c)
        { s.setAdding c (.filled task) with pool := s.pool.fill task func args }
  | push {s c task} (hc : s.adding c = .filled task) :
      Step s (.push c)
        { s.setAdding c .pushed with pool := s.pool.addTask task, added := s.added ++ [task] }
  /- At least one blocked worker wakes if there is one. -/
  | signal {s c} (V : Finset (Fin W)) (hc : s.adding c = .pushed)
      (hws : (∃ w, s.Blocked w) → ∃ w ∈ V, s.Blocked w) :
      Step s (.signal c) ((s.setAdding c .outside).wake V)
  | spurious {s w} : Step s (.spurious w) (s.wake {w})
  | test {s w} (hw : (s.workers w).pc = .lock ∨ (s.workers w).pc = .woken) :
      Step s (.test w)
        { s.setWorker w (threadPoolItem s.pool (s.workers w)).2 with
          pool := (threadPoolItem s.pool (s.workers w)).1 }
  /- With `thread_task` NULL the worker goes straight back to the lock. -/
  | skip {s w} (hw : (s.workers w).pc = .call) (ht : (s.workers w).threadTask = none) :
      Step s (.call w) (s.setWorker w ⟨.lock, none⟩)
  | call {s w task} (hw : (s.workers w).pc = .call) (ht : (s.workers w).threadTask = some task) :
      Step s (.call w)
        { s.setWorker w ⟨.running, some task⟩ with
          pool := { s.pool with mem := Pool.setPrev task none s.pool.mem } }
  | finish {s w task} (hw : (s.workers w).pc = .running) (hc : s.adding (.inr w) = .outside)
      (ht : (s.workers w).threadTask = some task) :
      Step s (.finish w)
        { s.setWorker w ⟨.lock, some task⟩ with executed := s.executed ++ [task] }
  | setStop {s} (hr : s.release = .outside) :
      Step s .setStop { s with pool := { s.pool with stop := true }, release := .stopped }
  | broadcast {s} (hr : s.release = .stopped) :
      Step s .broadcast { s.wake Finset.univ with release := .joining 0 }
  | join {s i} (hr : s.release = .joining i) (hi : i < maxWorker W) {w : Fin W} (hw : w.val = i)
      (hx : (s.workers w).pc = .exited) : Step s .join { s with release := .joining (i + 1) }
  | destroy {s i} (hr : s.release = .joining i) (hi : ¬ i < maxWorker W) :
      Step s .destroy { s with release := .released }

/-- `create_thread_pool` has returned; each worker's `thread_task` is uninitialised. -/
def Initial (s : State F A W P) : Prop :=
  s.pool = ⟨fun _ => none, none, none, false⟩ ∧ (∀ w, (s.workers w).pc = .lock) ∧
    (∀ c, s.adding c = .outside) ∧ s.release = .outside ∧ s.added = [] ∧ s.executed = []

open Transition in
def system (F A : Type) (W P : ℕ) : System (State F A W P) (Action W P) where
  Initial := Initial
  Step := Step

/-- No external thread is still to push once `stop` is set; running tasks may. -/
def ExternalBeforeStop (s : State F A W P) (a : Action W P) : Prop :=
  ∀ p : Fin P, a = .push (.inl p) → s.pool.stop = false

/-- While nobody waits, a signal may wake anyone. -/
theorem wakes_of_none_blocked {s : State F A W P} {V : Finset (Fin W)}
    (h : ∀ w, ¬ s.Blocked w) : (∃ w, s.Blocked w) → ∃ w ∈ V, s.Blocked w := by
  rintro ⟨w, hw⟩
  exact (h w hw).elim

end UnixCodes.ThreadPool
