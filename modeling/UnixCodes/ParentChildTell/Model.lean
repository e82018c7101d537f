import Mathlib.Data.Finset.Insert
import UnixCodes.Lib.Transition
import UnixCodes.Posix

/-! The two processes of `parent_child_tell.c`, which share a pipe. -/
namespace UnixCodes.ParentChildTell

open Posix Transition

/-- The argument of the program; what is invalid is reported, and treated like `cf`. -/
inductive Mode
  | pf
  | cf
  deriving DecidableEq

inductive Proc
  | parent
  | child
  deriving DecidableEq

/-- The process that runs first, with the pid that it sends. -/
structure Writer where
  proc : Proc
  value : ℤ

/-- The process that waits, with the pid that it compares what it gets to. -/
structure Reader where
  proc : Proc
  expected : ℤ

def parentFirst (pid : ℤ) : Writer := ⟨.parent, pid⟩

def childWait (getpid : ℤ) : Reader := ⟨.child, getpid⟩

def childFirst (getpid : ℤ) : Writer := ⟨.child, getpid⟩

def parentWait (pid : ℤ) : Reader := ⟨.parent, pid⟩

/-- What `main` calls on the two sides of `fork`, which returns the pid of the child. -/
def roles (mode : Mode) (pid : ℤ) : Writer × Reader :=
  match mode with
  | .pf => (parentFirst pid, childWait pid)
  | .cf => (childFirst pid, parentWait pid)

inductive Line
  | writeError (p : Proc) (e : Errno)
  | readError (p : Proc)
  | execFirst (p : Proc) (pid : ℤ)
  | execSecond (p : Proc) (pid : ℤ)
  | invalid (p : Proc)
  deriving DecidableEq

/-- Where the writer stands. -/
inductive WriterPc
  | closeRead
  | write
  | printf
  | closeWrite
  | done
  | killed
  deriving DecidableEq

/-- Where the reader stands; after the `read` with the contents of `newPid`. -/
inductive ReaderPc
  | closeWrite
  | read
  | compare (newPid : ℤ)
  | closeRead
  | done
  deriving DecidableEq

/-- `readEnds` and `writeEnds` are the processes that have these ends of the pipe open. -/
structure Tell where
  pipe : List ℤ
  readEnds : Finset Proc
  writeEnds : Finset Proc
  writer : WriterPc
  reader : ReaderPc
  printed : List Line

namespace Tell

def print (s : Tell) (l : Line) : Tell := { s with printed := s.printed ++ [l] }

end Tell

/-- A step of one of the processes; `junk` is what an uninitialised `newPid` holds. -/
inductive Action
  | writer
  | writeError (e : Errno)
  | reader
  | readEof (junk : ℤ)
  | readError (e : Errno) (junk : ℤ)

/-- A write without a reader ends the process. -/
inductive Tell.Step (w : Writer) (r : Reader) : Tell → Action → Tell → Prop
  | writerCloseRead {s : Tell} (hw : s.writer = .closeRead) :
      Step w r s .writer { s with readEnds := s.readEnds.erase w.proc, writer := .write }
  | write {s : Tell} (hw : s.writer = .write) (hends : s.readEnds ≠ ∅) :
      Step w r s .writer { s with pipe := s.pipe ++ [w.value], writer := .printf }
  | sigpipe {s : Tell} (hw : s.writer = .write) (hends : s.readEnds = ∅) :
      Step w r s .writer { s with writeEnds := s.writeEnds.erase w.proc, writer := .killed }
  | writeError {s : Tell} (hw : s.writer = .write) (e : Errno) :
      Step w r s (.writeError e) { s.print (.writeError w.proc e) with writer := .printf }
  | printFirst {s : Tell} (hw : s.writer = .printf) :
      Step w r s .writer { s.print (.execFirst w.proc w.value) with writer := .closeWrite }
  | writerCloseWrite {s : Tell} (hw : s.writer = .closeWrite) :
      Step w r s .writer { s with writeEnds := s.writeEnds.erase w.proc, writer := .done }
  | readerCloseWrite {s : Tell} (hr : s.reader = .closeWrite) :
      Step w r s .reader { s with writeEnds := s.writeEnds.erase r.proc, reader := .read }
  | read {s : Tell} (hr : s.reader = .read) (v : ℤ) (vs : List ℤ) (hpipe : s.pipe = v :: vs) :
      Step w r s .reader { s with pipe := vs, reader := .compare v }
  | readEof {s : Tell} (hr : s.reader = .read) (hpipe : s.pipe = []) (hends : s.writeEnds = ∅)
      (junk : ℤ) :
      Step w r s (.readEof junk) { s.print (.readError r.proc) with reader := .compare junk }
  | readError {s : Tell} (hr : s.reader = .read) (e : Errno) (junk : ℤ) :
      Step w r s (.readError e junk) { s.print (.readError r.proc) with reader := .compare junk }
  | printSecond {s : Tell} {newPid : ℤ} (hr : s.reader = .compare newPid) :
      Step w r s .reader
        { s.print (if r.expected = newPid then .execSecond r.proc newPid else .invalid r.proc) with
          reader := .closeRead }
  | readerCloseRead {s : Tell} (hr : s.reader = .closeRead) :
      Step w r s .reader { s with readEnds := s.readEnds.erase r.proc, reader := .done }

/-- After `fork` both processes have both ends of the pipe. -/
def Tell.start : Tell where
  pipe := []
  readEnds := {.parent, .child}
  writeEnds := {.parent, .child}
  writer := .closeRead
  reader := .closeWrite
  printed := []

def tell (mode : Mode) (pid : ℤ) : System Tell Action where
  Initial s := s = .start
  Step := Tell.Step (roles mode pid).1 (roles mode pid).2

end UnixCodes.ParentChildTell
