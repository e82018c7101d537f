import Mathlib.Data.Finset.Insert
import UnixCodes.Lib.Transition
import UnixCodes.Posix

/-! The three processes of `pipe_oversize_write.c`: two that write into a pipe more than it takes
at once, and the parent that reads. -/
namespace UnixCodes.PipeOversizeWrite

open Posix Transition

def WRITE_SIZE : ℕ := 8192

def READ_SIZE : ℕ := 1024

inductive Child
  | pid1
  | pid2
  deriving DecidableEq

/-- Whose copies of the ends of the pipe they are; `none` stands for the parent. -/
abbrev Proc : Type := Option Child

/-- The argument of `write_pattern`. -/
def Child.pattern : Child → UInt8
  | pid1 => 65
  | pid2 => 66

/-- Where a child stands; `n` are the bytes that its `write` has moved so far, or in all. -/
inductive ChildPc
  | absent
  | forkFailed
  | closeRead
  | write (n : ℕ)
  | closeWrite (n : ℕ)
  | exit (n : ℕ)
  | zombie (n : ℕ)
  | reaped (n : ℕ)
  deriving DecidableEq

/-- Where the parent stands; in the loop after a `read` with what it has got, and behind it with
the calls of `wait` that it still has to make. -/
inductive ParentPc
  | pipe
  | fork1
  | fork2
  | closeWrite
  | read
  | write (buf : List UInt8)
  | closeRead
  | wait (n : ℕ)
  | exited (code : ℕ)
  deriving DecidableEq

/-- The bytes in the pipe, the processes that have its ends open, and what the processes are at. -/
structure Processes where
  pipe : List UInt8
  readEnds : Finset Proc
  writeEnds : Finset Proc
  child : Child → ChildPc
  parent : ParentPc
  stdout : List UInt8

namespace Processes

def setChild (s : Processes) (c : Child) (p : ChildPc) : Processes :=
  { s with child := Function.update s.child c p }

/-- The child gets both ends of the parent, who goes on at `next`. -/
def fork (s : Processes) (c : Child) (next : ParentPc) : Processes :=
  { s.setChild c .closeRead with
    readEnds := if none ∈ s.readEnds then insert (some c) s.readEnds else s.readEnds
    writeEnds := if none ∈ s.writeEnds then insert (some c) s.writeEnds else s.writeEnds
    parent := next }

end Processes

/-- The `fork` that the parent stands at, and what comes after it. -/
def ParentPc.forks : ParentPc → Option (Child × ParentPc)
  | fork1 => some (.pid1, .fork2)
  | fork2 => some (.pid2, .closeWrite)
  | _ => none

/-- A child that has not been waited for. -/
def ChildPc.Waitable : ChildPc → Prop
  | .absent | .forkFailed | .reaped _ => False
  | _ => True

/-- The end of the `write` of a child before it has moved all bytes is `cut`. -/
inductive Action
  | parent
  | pipeError
  | forkError
  | read (bs : List UInt8)
  | readError (e : Errno)
  | print (n : ℕ) (r : WriteResult n)
  | wait (c : Child)
  | child (c : Child)
  | chunk (c : Child) (n : ℕ)
  | cut (c : Child)
  | sigpipe (c : Child)

/-- A pipe takes what there is room for. `read` waits for bytes as long as somebody can write, and
a `write` without a reader ends the process. -/
inductive Processes.Step (capacity : ℕ) : Processes → Action → Processes → Prop
  | pipe {s : Processes} (hp : s.parent = .pipe) :
      Step capacity s .parent
        { s with readEnds := {none}, writeEnds := {none}, parent := .fork1 }
  | pipeError {s : Processes} (hp : s.parent = .pipe) :
      Step capacity s .pipeError { s with parent := .exited 1 }
  | fork {s : Processes} {c : Child} {next : ParentPc} (hp : s.parent.forks = some (c, next)) :
      Step capacity s .parent (s.fork c next)
  | forkError {s : Processes} {c : Child} {next : ParentPc}
      (hp : s.parent.forks = some (c, next)) :
      Step capacity s .forkError { s.setChild c .forkFailed with parent := next }
  | closeWrite {s : Processes} (hp : s.parent = .closeWrite) :
      Step capacity s .parent { s with writeEnds := s.writeEnds.erase none, parent := .read }
  | read {s : Processes} (hp : s.parent = .read) (n : ℕ) (hpos : 0 < n) (hle : n ≤ READ_SIZE)
      (hpipe : n ≤ s.pipe.length) :
      Step capacity s (.read (s.pipe.take n))
        { s with pipe := s.pipe.drop n, parent := .write (s.pipe.take n) }
  | readEof {s : Processes} (hp : s.parent = .read) (hpipe : s.pipe = [])
      (hends : s.writeEnds = ∅) :
      Step capacity s (.read []) { s with parent := .closeRead }
  | readError {s : Processes} (hp : s.parent = .read) (e : Errno) :
      Step capacity s (.readError e) { s with parent := .closeRead }
  | print {s : Processes} {buf : List UInt8} (hp : s.parent = .write buf)
      (r : WriteResult buf.length) :
      Step capacity s (.print buf.length r)
        { s with stdout := s.stdout ++ buf.take r.accepted, parent := .read }
  | closeRead {s : Processes} (hp : s.parent = .closeRead) :
      Step capacity s .parent { s with readEnds := s.readEnds.erase none, parent := .wait 2 }
  | wait {s : Processes} {i n : ℕ} {c : Child} (hp : s.parent = .wait (i + 1))
      (hc : s.child c = .zombie n) :
      Step capacity s (.wait c) { s.setChild c (.reaped n) with parent := .wait i }
  | waitNone {s : Processes} {i : ℕ} (hp : s.parent = .wait (i + 1))
      (hc : ∀ c, ¬ (s.child c).Waitable) : Step capacity s .parent { s with parent := .wait i }
  | ret {s : Processes} (hp : s.parent = .wait 0) :
      Step capacity s .parent { s with parent := .exited 0 }
  | childCloseRead {s : Processes} {c : Child} (hc : s.child c = .closeRead) :
      Step capacity s (.child c)
        { s.setChild c (.write 0) with readEnds := s.readEnds.erase (some c) }
  | chunk {s : Processes} {c : Child} {k : ℕ} (hc : s.child c = .write k) (n : ℕ) (hpos : 0 < n)
      (hle : k + n ≤ WRITE_SIZE) (hroom : s.pipe.length + n ≤ capacity)
      (hends : s.readEnds ≠ ∅) :
      Step capacity s (.chunk c n)
        { s.setChild c (.write (k + n)) with pipe := s.pipe ++ List.replicate n c.pattern }
  | written {s : Processes} {c : Child} (hc : s.child c = .write WRITE_SIZE) :
      Step capacity s (.child c) (s.setChild c (.closeWrite WRITE_SIZE))
  | cut {s : Processes} {c : Child} {k : ℕ} (hc : s.child c = .write k) :
      Step capacity s (.cut c) (s.setChild c (.closeWrite k))
  | sigpipe {s : Processes} {c : Child} {k : ℕ} (hc : s.child c = .write k)
      (hends : s.readEnds = ∅) :
      Step capacity s (.sigpipe c)
        { s.setChild c (.zombie k) with writeEnds := s.writeEnds.erase (some c) }
  | childCloseWrite {s : Processes} {c : Child} {n : ℕ} (hc : s.child c = .closeWrite n) :
      Step capacity s (.child c)
        { s.setChild c (.exit n) with writeEnds := s.writeEnds.erase (some c) }
  | exit {s : Processes} {c : Child} {n : ℕ} (hc : s.child c = .exit n) :
      Step capacity s (.child c) (s.setChild c (.zombie n))

def Processes.start : Processes where
  pipe := []
  readEnds := ∅
  writeEnds := ∅
  child _ := .absent
  parent := .pipe
  stdout := []

def processes (capacity : ℕ) : System Processes Action where
  Initial s := s = .start
  Step := Processes.Step capacity

end UnixCodes.PipeOversizeWrite
