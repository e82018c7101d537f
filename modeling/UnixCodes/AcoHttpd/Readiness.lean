import UnixCodes.AcoHttpd.Routine
import UnixCodes.Lib.Transition
import Mathlib.Data.List.Basic
import Mathlib.Logic.Function.Basic

/-! Event delivery to `client_routine` under the level-triggered backend `unix_kqueue.c` and the
edge-triggered backend `unix_epoll.c`. -/
namespace UnixCodes.AcoHttpd

open Posix Transition

structure Socket where
  unread : List UInt8
  eof : Bool

def Socket.Readable (s : Socket) : Prop := s.unread ≠ [] ∨ s.eof = true

instance (s : Socket) : Decidable s.Readable := inferInstanceAs (Decidable (_ ∨ _))

/-- The answers of `read` that the state of a non-blocking socket allows. -/
def Socket.Gives (s : Socket) : ReadResult bufSize → Prop
  | .bytes [] _ => s.unread = [] ∧ s.eof = true
  | .bytes (x :: xs) _ => x :: xs <+: s.unread
  | .error e => e = EAGAIN → ¬ s.Readable

def Socket.read (s : Socket) : ReadResult bufSize → Socket
  | .bytes bs _ => { s with unread := s.unread.drop bs.length }
  | .error _ => s

inductive Backend
  | kqueue
  | epoll

/-- `edge` is the epoll item's place on the ready list: set by an arrival, however many there are,
and taken by `epoll_wait`. `fetched` is an entry of the batch that the loop has not come to. -/
structure Connection where
  pc : Pc
  socket : Socket
  registered : Bool
  edge : Bool
  fetched : Bool

namespace Connection

def created : Connection := ⟨.created, ⟨[], false⟩, false, false, false⟩

/-- `kevent` reports a registered descriptor while it is readable, `epoll_wait` once an edge. -/
def Reports : Backend → Connection → Prop
  | .kqueue, c => c.registered = true ∧ c.socket.Readable
  | .epoll, c => c.edge = true

/-- An event is reported, or has been reported and not yet acted upon. -/
def Undelivered (b : Backend) (c : Connection) : Prop := c.Reports b ∨ c.fetched = true

def Waiting (c : Connection) : Prop := c.pc = .created ∨ c.pc = .yielded

def arrive (c : Connection) (bs : List UInt8) : Connection :=
  { c with
    socket := { c.socket with unread := c.socket.unread ++ bs }
    edge := c.registered || c.edge }

def close (c : Connection) : Connection :=
  { c with socket := { c.socket with eof := true }, edge := c.registered || c.edge }

/-- `poll_add`; a descriptor that is already readable starts with an edge. -/
def pollAdd (c : Connection) : Connection :=
  { c with registered := true, edge := decide c.socket.Readable }

def fetch (c : Connection) : Connection := { c with edge := false, fetched := true }

def resume (c : Connection) (pc : Pc) : Connection := { c with pc := pc, fetched := false }

/-- One call of the running routine; only `read` changes the socket, only `EV_DELETE` or
`EPOLL_CTL_DEL` the registration. -/
def call (c : Connection) (k : Answers) : Connection :=
  match c.pc with
  | .reading => { c with pc := clientRoutine c.pc k, socket := c.socket.read k.read }
  | .deleting =>
    if k.delete = none then
      { c with pc := clientRoutine c.pc k, registered := false, edge := false }
    else { c with pc := clientRoutine c.pc k }
  | _ => { c with pc := clientRoutine c.pc k }

end Connection

inductive Event (ι : Type)
  | arrive (i : ι) (bs : List UInt8)
  | close (i : ι)
  | pollAdd (i : ι)
  | wait (taken : ι → Bool)
  | resume (i : ι)
  | call (i : ι) (k : Answers)

variable {ι : Type} [DecidableEq ι]

/-- The peers act at any time, the loop only while no routine runs, and it waits for new events
only when it has come to the end of the batch. -/
inductive Deliver (b : Backend) : (ι → Connection) → Event ι → (ι → Connection) → Prop
  | arrive {s : ι → Connection} (i : ι) (bs : List UInt8) (hopen : (s i).socket.eof = false) :
      Deliver b s (.arrive i bs) (Function.update s i ((s i).arrive bs))
  | close {s : ι → Connection} (i : ι) :
      Deliver b s (.close i) (Function.update s i (s i).close)
  | pollAdd {s : ι → Connection} (i : ι) (hidle : ∀ j, ¬ (s j).pc.Running)
      (hnew : (s i).pc = .created ∧ (s i).registered = false) :
      Deliver b s (.pollAdd i) (Function.update s i (s i).pollAdd)
  | wait {s : ι → Connection} (taken : ι → Bool) (hidle : ∀ j, ¬ (s j).pc.Running)
      (hdone : ∀ j, (s j).fetched = false) (htaken : ∀ j, taken j = true → (s j).Reports b) :
      Deliver b s (.wait taken) (fun j => if taken j then (s j).fetch else s j)
  | resume {s : ι → Connection} (i : ι) {pc : Pc} (hidle : ∀ j, ¬ (s j).pc.Running)
      (hfetched : (s i).fetched = true) (hpc : acoResume (s i).pc = some pc) :
      Deliver b s (.resume i) (Function.update s i ((s i).resume pc))
  | call {s : ι → Connection} (i : ι) (k : Answers) (hrun : (s i).pc.Running)
      (hread : (s i).pc = .reading → (s i).socket.Gives k.read) :
      Deliver b s (.call i k) (Function.update s i ((s i).call k))

def delivery (ι : Type) [DecidableEq ι] (b : Backend) : System (ι → Connection) (Event ι) where
  Initial s := ∀ i, s i = .created
  Step := Deliver b

/-- From the `EAGAIN` read to the next resumption nothing readable goes without an event. -/
def Awake (c : Connection) : Prop :=
  c.Waiting ∨ c.pc = .writing ∨ c.pc = .yielding → c.registered = true → c.socket.Readable →
    c.edge = true ∨ c.fetched = true

variable {b : Backend} {s t : ι → Connection} {c : Connection} {i : ι} {a : Event ι} {k : Answers}

theorem awake_created : Awake .created := by
  intro _ hreg
  simp [Connection.created] at hreg

/-- An arrival on a registered socket leaves an edge. -/
theorem awake_arrive {bs : List UInt8} : Awake (c.arrive bs) := by
  intro _ hreg _
  left
  change (c.registered || c.edge) = true
  simp [show c.registered = true from hreg]

theorem awake_close : Awake c.close := by
  intro _ hreg _
  left
  change (c.registered || c.edge) = true
  simp [show c.registered = true from hreg]

theorem awake_pollAdd : Awake c.pollAdd := by
  intro _ _ hr
  left
  exact decide_eq_true hr

theorem awake_fetch : Awake c.fetch := by
  intro _ _ _
  right
  rfl

theorem acoResume_eq {pc pc' : Pc} (h : acoResume pc = some pc') : pc' = .reading := by
  cases pc <;> simp_all [acoResume]

/-- There is no obligation while the routine reads or is on its way out. -/
theorem awake_of_pc (h : c.pc = .reading ∨ c.pc = .deleting ∨ c.pc = .exiting ∨ c.pc = .ended) :
    Awake c := by
  intro hw
  rcases h with h | h | h | h <;> simp [Connection.Waiting, h] at hw

theorem awake_resume {pc : Pc} (h : acoResume c.pc = some pc) : Awake (c.resume pc) := by
  obtain rfl := acoResume_eq h
  exact awake_of_pc (.inl rfl)

/-- Only a read that finds nothing lets the routine go on to its `aco_yield`. -/
theorem awake_call (hc : Awake c) (hrun : c.pc.Running)
    (hread : c.pc = .reading → c.socket.Gives k.read) : Awake (c.call k) := by
  have hstep := clientRoutine_step (k := k) hrun
  unfold Connection.call
  generalize hpc : c.pc = pc at *
  generalize clientRoutine pc k = pc' at *
  cases hstep with
  | eof => exact awake_of_pc (by simp)
  | data => exact awake_of_pc (by simp)
  | interrupted => exact awake_of_pc (by simp)
  | failed => exact awake_of_pc (by simp)
  | again hr =>
    intro _ _ hreadable
    have hgives := hread rfl
    rw [hr] at hgives hreadable
    exact (hgives rfl hreadable).elim
  | refused => exact awake_of_pc (by simp)
  | written =>
    intro _ hreg hreadable
    exact hc (.inr (.inl hpc)) hreg hreadable
  | yield =>
    intro _ hreg hreadable
    exact hc (.inr (.inr hpc)) hreg hreadable
  | delete =>
    by_cases hk : k.delete = none
    · exact awake_of_pc (by simp [hk])
    · exact awake_of_pc (by simp [hk])
  | exit => exact awake_of_pc (by simp)

theorem awake_update (hs : ∀ j, Awake (s j)) (hc : Awake c) (j : ι) :
    Awake (Function.update s i c j) := by
  by_cases hj : j = i
  · subst hj
    simpa using hc
  · simpa [Function.update_of_ne hj] using hs j

theorem awake_step (h : Deliver b s a t) (hs : ∀ j, Awake (s j)) : ∀ j, Awake (t j) := by
  cases h with
  | arrive => exact awake_update hs awake_arrive
  | close => exact awake_update hs awake_close
  | pollAdd => exact awake_update hs awake_pollAdd
  | wait taken =>
    intro j
    cases hj : taken j with
    | true => simpa [hj] using awake_fetch
    | false => simpa [hj] using hs j
  | resume i hidle hf hpc => exact awake_update hs (awake_resume hpc)
  | call i k hrun hread => exact awake_update hs (awake_call (hs i) hrun hread)

theorem awake_reachable (h : (delivery ι b).Reachable s) : ∀ i, Awake (s i) := by
  apply System.reachable_invariant (P := fun s => ∀ i, Awake (s i)) ?_ ?_ h
  · intro s hs i
    rw [hs i]
    exact awake_created
  · intro s a t
    exact awake_step

/-- Under either backend a waiting connection with something to read has an undelivered event:
whatever the level-triggered registration would report, the edge-triggered one has kept. -/
theorem readable_undelivered (h : (delivery ι b).Reachable s) (hw : (s i).Waiting)
    (hreg : (s i).registered = true) (hr : (s i).socket.Readable) : (s i).Undelivered b := by
  cases b with
  | kqueue => exact .inl ⟨hreg, hr⟩
  | epoll => exact awake_reachable h i (.inl hw) hreg hr

/-- A byte arrives after the `EAGAIN` read and before the `aco_yield`. -/
theorem readable_undelivered_beforeYield :
    ∃ s : Unit → Connection, (delivery Unit .epoll).Reachable s ∧ (s ()).pc = .yielded ∧
      (s ()).socket.unread = [2] ∧ (s ()).Undelivered .epoll := by
  have hr : ∃ s : Unit → Connection, (delivery Unit .epoll).Reachable s ∧
      (s ()).pc = .yielded ∧ (s ()).registered = true ∧ (s ()).socket.unread = [2] := by
    have hone : [(1 : UInt8)].length ≤ bufSize := by decide
    refine ⟨_, ⟨fun _ => .created, _, fun _ => rfl,
      .stepL (.pollAdd () (fun _ h => h) ⟨rfl, rfl⟩) <|
      .stepL (.arrive () [1] rfl) <|
      .stepL (.wait (fun _ => true) (fun _ h => h) (fun _ => rfl) (fun _ _ => rfl)) <|
      .stepL (.resume () (fun _ h => h) rfl rfl) <|
      .stepL (.call () (.reads (.bytes [1] hone)) trivial (fun _ => List.prefix_rfl)) <|
      .stepL (.call () (.reads (.error EAGAIN)) trivial (fun _ _ h => ?_)) <|
      .stepL (.arrive () [2] rfl) <|
      .stepL (.call () (.reads (.error EAGAIN)) trivial (fun h => ?_)) <|
      .stepL (.call () (.reads (.error EAGAIN)) trivial (fun h => ?_)) .refl⟩, rfl, rfl, rfl⟩
    · rcases h with h | h
      · exact h rfl
      · cases h
    · cases h
    · cases h
  obtain ⟨s, hs, hpc, hreg, hunread⟩ := hr
  refine ⟨s, hs, hpc, hunread, readable_undelivered hs (.inr hpc) hreg (.inl ?_)⟩
  simp [hunread]

end UnixCodes.AcoHttpd
