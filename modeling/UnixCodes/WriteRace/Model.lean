import UnixCodes.Lib.Transition
import UnixCodes.Posix

/-! The two threads of `write_race.c`, which append to one file under a mutex. -/
namespace UnixCodes.WriteRace

open Posix Transition

inductive Thread
  | thread1
  | thread2
  deriving DecidableEq

/-- What a thread function writes, and what it returns. -/
structure ThreadFunc where
  line : List UInt8
  value : ℕ

def t1s : List UInt8 := "thread 1 write\n".toList.map fun c => c.toNat.toUInt8

def t2s : List UInt8 := "thread 2 write\n".toList.map fun c => c.toNat.toUInt8

def thread1Func : ThreadFunc := ⟨t1s, 0x11⟩

def thread2Func : ThreadFunc := ⟨t2s, 0x22⟩

def Thread.func : Thread → ThreadFunc
  | thread1 => thread1Func
  | thread2 => thread2Func

/-- Where a thread stands; after the `write` of the turn `i` with its result. -/
inductive Pc
  | absent
  | lock
  | write (i : ℕ)
  | printf (i : ℕ) (wn : Except Errno ℕ)
  | unlock
  | ret
  | returned (value : ℕ)

/-- The head of the loop. -/
def Pc.loop (i : ℕ) : Pc := if i < 100 then .write i else .unlock

/-- The calls of `main` that it checks. -/
inductive Setup
  | openFile
  | malloc
  | mutexInit
  | create2
  | create1
  deriving DecidableEq

inductive MainPc
  | setup (c : Setup)
  | join (t : Thread)
  | printf (t : Thread) (ptRet : ℕ)
  | close
  | returned (code : ℤ)
  deriving DecidableEq

def Setup.next : Setup → MainPc
  | openFile => .setup .malloc
  | malloc => .setup .mutexInit
  | mutexInit => .setup .create2
  | create2 => .setup .create1
  | create1 => .join .thread1

/-- The thread that the call creates. -/
def Setup.thread : Setup → Option Thread
  | create1 => some .thread1
  | create2 => some .thread2
  | _ => none

def MainPc.afterPrintf : Thread → MainPc
  | .thread1 => .join .thread2
  | .thread2 => .close

inductive Line
  | setupError (c : Setup)
  | writeError (t : Thread) (e : Errno)
  | wrote (t : Thread) (wn : ℕ)
  | returnValue (t : Thread) (ptRet : ℕ)

def Line.ofWrite (t : Thread) : Except Errno ℕ → Line
  | .error e => .writeError t e
  | .ok wn => .wrote t wn

/-- The lock of `foo`, the file behind its descriptor, and what the process is at. -/
structure Race where
  lock : Option Thread
  file : List UInt8
  fdOpen : Bool
  pc : Thread → Pc
  main : MainPc
  printed : List Line

namespace Race

def print (s : Race) (l : Line) : Race := { s with printed := s.printed ++ [l] }

def setPc (s : Race) (t : Thread) (p : Pc) : Race := { s with pc := Function.update s.pc t p }

/-- The process is there; it ends when `main` returns, and its threads with it. -/
def Running (s : Race) : Prop := ∀ code, s.main ≠ .returned code

/-- A call of `main` has succeeded. -/
def completed (s : Race) (c : Setup) : Race where
  lock := s.lock
  file := s.file
  fdOpen := if c = .openFile then true else s.fdOpen
  pc t := if c.thread = some t then .lock else s.pc t
  main := c.next
  printed := s.printed

end Race

def result {n : ℕ} : WriteResult n → Except Errno ℕ
  | .error e => .error e
  | .count k _ => .ok k

/-- A step of `main`, with a call that fails, or of a thread. -/
inductive Action
  | main
  | fail
  | lock (t : Thread)
  | write (t : Thread) (r : WriteResult t.func.line.length)
  | printf (t : Thread)
  | unlock (t : Thread)
  | ret (t : Thread)

inductive Race.Step : Race → Action → Race → Prop
  | setup {s : Race} {c : Setup} (hm : s.main = .setup c) : Step s .main (s.completed c)
  | fail {s : Race} {c : Setup} (hm : s.main = .setup c) :
      Step s .fail { s.print (.setupError c) with main := .returned (-1) }
  | join {s : Race} {t : Thread} {value : ℕ} (hm : s.main = .join t)
      (ht : s.pc t = .returned value) : Step s .main { s with main := .printf t value }
  | printfMain {s : Race} {t : Thread} {ptRet : ℕ} (hm : s.main = .printf t ptRet) :
      Step s .main { s.print (.returnValue t ptRet) with main := .afterPrintf t }
  | close {s : Race} (hm : s.main = .close) :
      Step s .main { s with fdOpen := false, main := .returned 0 }
  | lock {s : Race} {t : Thread} (hrun : s.Running) (ht : s.pc t = .lock) (hl : s.lock = none) :
      Step s (.lock t) { s.setPc t (.loop 0) with lock := some t }
  | write {s : Race} {t : Thread} {i : ℕ} (hrun : s.Running) (ht : s.pc t = .write i)
      (r : WriteResult t.func.line.length) (hfd : s.fdOpen = false → ∃ e, r = .error e) :
      Step s (.write t r)
        { s.setPc t (.printf i (result r)) with
          file := s.file ++ t.func.line.take r.accepted }
  | printf {s : Race} {t : Thread} {i : ℕ} {wn : Except Errno ℕ} (hrun : s.Running)
      (ht : s.pc t = .printf i wn) :
      Step s (.printf t) ((s.print (.ofWrite t wn)).setPc t (.loop (i + 1)))
  | unlock {s : Race} {t : Thread} (hrun : s.Running) (ht : s.pc t = .unlock) :
      Step s (.unlock t) { s.setPc t .ret with lock := none }
  | ret {s : Race} {t : Thread} (hrun : s.Running) (ht : s.pc t = .ret) :
      Step s (.ret t) (s.setPc t (.returned t.func.value))

/-- `open` truncates the file. -/
def Race.start : Race where
  lock := none
  file := []
  fdOpen := false
  pc _ := .absent
  main := .setup .openFile
  printed := []

def race : System Race Action where
  Initial s := s = .start
  Step := Race.Step

end UnixCodes.WriteRace
