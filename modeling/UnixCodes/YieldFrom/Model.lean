import Mathlib.Algebra.Field.Defs
import Mathlib.Data.List.AList
import UnixCodes.Lib.Outcome

/-! The coroutines of `yield_from_exm.py`. -/
namespace UnixCodes.YieldFrom

open Program

variable {R K : Type}

/-- The objects that are sent; `number` are the numbers, with exact arithmetic. -/
inductive PyObject (R K : Type)
  | none
  | ellipsis
  | number (r : R)
  | other (k : K)
  deriving DecidableEq

/-- The exceptions; a generator that returns raises `stopIteration` in its caller. -/
inductive Exn
  | stopIteration (value : Option String)
  | typeError
  | zeroDivisionError
  deriving DecidableEq

/-- What a generator does when it is resumed: it yields `None`, or returns. -/
inductive Resumed (σ α : Type)
  | yielded (s : σ)
  | returned (a : α)

/-- A `sub_gen` that waits at its `yield`. -/
structure SubGen (R : Type) where
  total : R
  count : ℕ
  avg : R

section SubGen

variable [DivisionRing R]

/-- The operator `/`. -/
def truediv (total : R) (count : ℕ) : Except Exn R :=
  if count = 0 then .error .zeroDivisionError else .ok (total / count)

namespace SubGen

/-- The first `next`. -/
def start : SubGen R := ⟨0, 0, 0⟩

def send (s : SubGen R) (nv : PyObject R K) : Except Exn (Resumed (SubGen R) (ℕ × R)) :=
  match nv with
  | .none => .ok (.returned (s.count, s.avg))
  | .number v => do
    let count := s.count + 1
    let total := s.total + v
    let avg ← truediv total count
    .ok (.yielded ⟨total, count, avg⟩)
  | .ellipsis | .other _ => .error .typeError

end SubGen

end SubGen

/-- Where a `grouper` stands: before its first `next`, at `key = yield`, or in
`yield from sub_gen()`. -/
inductive Grouper (R K : Type)
  | created
  | waiting
  | delegating (key : PyObject R K) (sub : SubGen R)
  | closed

/-- What has been sent, as the coroutines have taken it. -/
inductive Receipt (R K : Type)
  | key (k : PyObject R K)
  | counted (key : PyObject R K) (nv : PyObject R K)

/-- The variables of `main`, with what has been taken so far. -/
structure Machine (R K : Type) where
  group : Grouper R K
  results : AList fun _ : PyObject R K => ℕ × R
  received : List (Receipt R K)

section Machine

variable [DivisionRing R] [DecidableEq R] [DecidableEq K]

/-- `group.send`, which yields `None` if it does not raise an exception. -/
def send (v : PyObject R K) : Program Exn (Machine R K) Unit := do
  let m ← get
  match m.group with
  | .created =>
    if v = .none then set { m with group := .waiting } else throw .typeError
  | .waiting =>
    if v = .ellipsis then
      set { m with group := .closed }
      throw (.stopIteration (some "done"))
    else
      set { m with group := .delegating v .start, received := m.received ++ [Receipt.key v] }
  | .delegating key sub =>
    match sub.send v with
    | .ok (.yielded sub) =>
      set { m with
        group := .delegating key sub
        received := m.received ++ [Receipt.counted key v] }
    | .ok (.returned subRet) =>
      set { m with group := .waiting, results := m.results.insert key subRet }
    | .error e =>
      set { m with group := .closed }
      throw e
  | .closed => throw (.stopIteration none)

/-- `grouper(results)` is created and primed. -/
def corowrap : Program Exn (Machine R K) Unit := do
  modify fun m => { m with group := .created }
  send .none

def close : Program Exn (Machine R K) Unit := modify fun m => { m with group := .closed }

/-- One turn of the loop over `data.items()`. -/
def sendItem (key : PyObject R K) (values : List (PyObject R K)) :
    Program Exn (Machine R K) Unit := do
  send key
  values.forM send
  send .none

def main (data : AList fun _ : PyObject R K => List (PyObject R K)) :
    Program Exn (Machine R K) Unit := do
  modify fun m => { m with results := ∅, received := [] }
  corowrap
  data.entries.forM fun e => sendItem e.1 e.2
  tryCatch (send .ellipsis) fun e =>
    match e with
    | .stopIteration _ => pure ()
    | e => throw e
  close

end Machine

end UnixCodes.YieldFrom
