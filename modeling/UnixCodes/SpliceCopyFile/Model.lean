import UnixCodes.Lib.Transition
import UnixCodes.Posix

/-! The two ways in which `splice_copy_file.c` copies a file. -/
namespace UnixCodes.SpliceCopyFile

open Posix Transition

/-- What the last argument of the program chooses between. -/
inductive Method
  | copyFileReadWrite
  | copyFileSplice
  deriving DecidableEq

/-- What stands between the two files when `bs` comes in: `read` fills `buf` from its beginning,
and `splice` appends to the pipe. -/
def Method.fill : Method → List UInt8 → List UInt8 → List UInt8
  | copyFileReadWrite, _, bs => bs
  | copyFileSplice, held, bs => held ++ bs

inductive File
  | f1
  | f2
  deriving DecidableEq

inductive Message
  | usage (method : Method)
  | openError (f : File) (e : Errno)
  | pipeError (e : Errno)
  | copyError (e : Errno)
  | success
  deriving DecidableEq

/-- Where the function stands: at the calls before the loop, at the head of the loop, or in its
body after `n` bytes have come in. -/
inductive Loop
  | openF1
  | openF2
  | pipe
  | head
  | body (n : ℕ)
  | returned
  | exited
  deriving DecidableEq

/-- The answer to a call that moves bytes out. -/
abbrev Moved := Except Errno ℕ

def moved : Moved → ℕ
  | .error _ => 0
  | .ok m => m

/-- `unread` is what `f1` still has behind the offset of its descriptor, `held` what is in `buf`
or in the pipe, and `turns` are the bytes that came in, with the answer to the call that moves
them out. -/
structure Copy where
  unread : List UInt8
  held : List UInt8
  dst : List UInt8
  turns : List (ℕ × Moved)
  printed : List Message
  loop : Loop

namespace Copy

def print (s : Copy) (m : Message) : Copy := { s with printed := s.printed ++ [m] }

/-- `n` bytes of the source come in. -/
def input (method : Method) (s : Copy) (n : ℕ) : Copy :=
  { s with held := method.fill s.held (s.unread.take n), unread := s.unread.drop n }

/-- The first bytes that are held go to the destination; the answer is not looked at. -/
def output (s : Copy) (n : ℕ) (r : Moved) : Copy :=
  { s with
    dst := s.dst ++ s.held.take (moved r)
    held := s.held.drop (moved r)
    turns := s.turns ++ [(n, r)] }

/-- What follows the loop over the last answer `n`. -/
def finish (s : Copy) (r : Option Errno) : Copy :=
  match r with
  | some e => { (s.print (.copyError e)).print .success with loop := .returned }
  | none => { s.print .success with loop := .returned }

end Copy

/-- The answers of the system calls. -/
inductive Action
  | openF1 (r : Option Errno)
  | openF2 (r : Option Errno)
  | pipe (r : Option Errno)
  | input (r : Except Errno ℕ)
  | output (r : Moved)

inductive Copy.Step (method : Method) : Copy → Action → Copy → Prop
  | openF1Error {s : Copy} (hl : s.loop = .openF1) (e : Errno) :
      Step method s (.openF1 (some e))
        { (s.print (.usage method)).print (.openError .f1 e) with loop := .exited }
  | openF1 {s : Copy} (hl : s.loop = .openF1) :
      Step method s (.openF1 none) { s.print (.usage method) with loop := .openF2 }
  | openF2Error {s : Copy} (hl : s.loop = .openF2) (e : Errno) :
      Step method s (.openF2 (some e)) { s.print (.openError .f2 e) with loop := .exited }
  | openF2 {s : Copy} (hl : s.loop = .openF2) :
      Step method s (.openF2 none)
        { s with loop := if method = .copyFileSplice then .pipe else .head }
  | pipeError {s : Copy} (hl : s.loop = .pipe) (e : Errno) :
      Step method s (.pipe (some e)) { s.print (.pipeError e) with loop := .exited }
  | pipe {s : Copy} (hl : s.loop = .pipe) : Step method s (.pipe none) { s with loop := .head }
  | input {s : Copy} (hl : s.loop = .head) (n : ℕ) (hpos : 0 < n) (hle : n ≤ 256)
      (hunread : n ≤ s.unread.length) :
      Step method s (.input (.ok n)) { s.input method n with loop := .body n }
  | inputEnd {s : Copy} (hl : s.loop = .head) : Step method s (.input (.ok 0)) (s.finish none)
  | inputError {s : Copy} (hl : s.loop = .head) (e : Errno) :
      Step method s (.input (.error e)) (s.finish (some e))
  | output {s : Copy} {n : ℕ} (hl : s.loop = .body n) (r : Moved) (hle : moved r ≤ n) :
      Step method s (.output r) { s.output n r with loop := .head }

/-- `f2` does not exist before. -/
def Copy.start (source : List UInt8) : Copy where
  unread := source
  held := []
  dst := []
  turns := []
  printed := []
  loop := .openF1

def copyFile (method : Method) (source : List UInt8) : System Copy Action where
  Initial s := s = .start source
  Step := Copy.Step method

end UnixCodes.SpliceCopyFile
