import Mathlib.Data.Finset.Basic
import UnixCodes.Lib.Transition

/-! The signals of `sig_mask.c`, from the call that blocks `SIGINT` on. -/
namespace UnixCodes.SigMask

open Transition

inductive Signal
  | sigint
  | sigterm
  deriving DecidableEq

/-- The statement that `main` comes to next; `paused` is inside of `pause`, and `sigismember` has
the set that `sigpending` has filled in. -/
inductive Point
  | pause
  | paused
  | test
  | sigpending
  | sigismember (pendingSigSet : Finset Signal)
  | sigprocmask
  | exited
  deriving DecidableEq

/-- A running `handle_signal`, with the mask that is restored when it returns. -/
structure Handler where
  sigNum : Signal
  saved : Finset Signal
  returning : Bool
  deriving DecidableEq

/-- The first of `handlers` runs and has interrupted the others; `handled` are the branches for
`SIGINT` that have been entered and the handlers of `SIGTERM` that have returned, in order. -/
structure Process where
  sigMask : Finset Signal
  pending : Finset Signal
  unblockSigInt : Bool
  handlers : List Handler
  point : Point
  handled : List Signal

/-- What the environment does, or the process. -/
inductive Action
  | arrive (sigNum : Signal)
  | deliver (sigNum : Signal)
  | handler
  | main
  | fail

/-- A signal that is pending and not blocked is delivered at some time. The handler blocks its own
signal, and nothing else, while it runs. -/
inductive Process.Step (oldSigMask : Finset Signal) : Process → Action → Process → Prop
  | arrive {s : Process} (hp : s.point ≠ .exited) (sigNum : Signal) :
      Step oldSigMask s (.arrive sigNum) { s with pending := insert sigNum s.pending }
  | deliver {s : Process} (hp : s.point ≠ .exited) (sigNum : Signal)
      (hpending : sigNum ∈ s.pending) (hmask : sigNum ∉ s.sigMask) :
      Step oldSigMask s (.deliver sigNum)
        { s with
          pending := s.pending.erase sigNum
          sigMask := insert sigNum s.sigMask
          handlers := ⟨sigNum, s.sigMask, false⟩ :: s.handlers }
  | handleSigint {s : Process} {saved : Finset Signal} {hs : List Handler}
      (hh : s.handlers = ⟨.sigint, saved, false⟩ :: hs) :
      Step oldSigMask s .handler
        { s with
          handlers := ⟨.sigint, saved, true⟩ :: hs
          handled := s.handled ++ [.sigint] }
  | handleSigterm {s : Process} {saved : Finset Signal} {hs : List Handler}
      (hh : s.handlers = ⟨.sigterm, saved, false⟩ :: hs) :
      Step oldSigMask s .handler
        { s with handlers := ⟨.sigterm, saved, true⟩ :: hs, unblockSigInt := true }
  | sigreturn {s : Process} {sigNum : Signal} {saved : Finset Signal} {hs : List Handler}
      (hh : s.handlers = ⟨sigNum, saved, true⟩ :: hs) :
      Step oldSigMask s .handler
        { s with
          handlers := hs
          sigMask := saved
          point := if hs = [] ∧ s.point = .paused then .test else s.point
          handled := if sigNum = .sigterm then s.handled ++ [.sigterm] else s.handled }
  | pause {s : Process} (hh : s.handlers = []) (hp : s.point = .pause) :
      Step oldSigMask s .main { s with point := .paused }
  | test {s : Process} (hh : s.handlers = []) (hp : s.point = .test) :
      Step oldSigMask s .main
        { s with point := if s.unblockSigInt then .sigpending else .pause }
  | sigpending {s : Process} (hh : s.handlers = []) (hp : s.point = .sigpending) :
      Step oldSigMask s .main { s with point := .sigismember s.pending }
  | sigismember {s : Process} {pendingSigSet : Finset Signal} (hh : s.handlers = [])
      (hp : s.point = .sigismember pendingSigSet) :
      Step oldSigMask s .main
        { s with point := if .sigint ∈ pendingSigSet then .sigprocmask else .pause }
  | sigprocmask {s : Process} (hh : s.handlers = []) (hp : s.point = .sigprocmask) :
      Step oldSigMask s .main { s with sigMask := oldSigMask, point := .pause }
  | fail {s : Process} (hh : s.handlers = [])
      (hp : s.point = .sigpending ∨ s.point = .sigprocmask) :
      Step oldSigMask s .fail { s with point := .exited }

/-- `SIGINT` has just been blocked, and what is pending was blocked before. A `SIGTERM` may have
been handled before. -/
structure Process.Initial (oldSigMask : Finset Signal) (s : Process) : Prop where
  sigMask : s.sigMask = insert .sigint oldSigMask
  pending : s.pending ⊆ oldSigMask
  handlers : s.handlers = []
  point : s.point = .pause
  handled : s.handled = if s.unblockSigInt then [.sigterm] else []

def process (oldSigMask : Finset Signal) : System Process Action where
  Initial := Process.Initial oldSigMask
  Step := Process.Step oldSigMask

/-- The process with nothing pending. -/
def Process.start (oldSigMask : Finset Signal) : Process where
  sigMask := insert .sigint oldSigMask
  pending := ∅
  unblockSigInt := false
  handlers := []
  point := .pause
  handled := []

theorem start_initial (oldSigMask : Finset Signal) :
    (Process.start oldSigMask).Initial oldSigMask := ⟨rfl, Finset.empty_subset _, rfl, rfl, rfl⟩

end UnixCodes.SigMask
