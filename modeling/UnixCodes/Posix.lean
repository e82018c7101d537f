import Mathlib.Data.UInt

/-! Answers of the system calls that several of the programs make. -/
namespace UnixCodes.Posix

/-- An error number; `errno` is positive after a failed call. -/
structure Errno where
  code : ℕ
  pos : 0 < code
  deriving DecidableEq

def EINTR : Errno := ⟨4, by decide⟩
def EIO : Errno := ⟨5, by decide⟩
def EMFILE : Errno := ⟨24, by decide⟩
def EAGAIN : Errno := ⟨35, by decide⟩
def EWOULDBLOCK : Errno := EAGAIN

/-- The answer to `read(fd, buf, n)`; no bytes mean end of file. -/
inductive ReadResult (n : ℕ)
  | error (e : Errno)
  | bytes (bs : List UInt8) (le : bs.length ≤ n)

/-- The answer to `write(fd, buf, n)`, which may take any part of the bytes. -/
inductive WriteResult (n : ℕ)
  | error (e : Errno)
  | count (k : ℕ) (le : k ≤ n)

def WriteResult.accepted {n : ℕ} : WriteResult n → ℕ
  | .error _ => 0
  | .count k _ => k

theorem WriteResult.accepted_le {n : ℕ} (w : WriteResult n) : w.accepted ≤ n := by
  cases w with
  | error => exact Nat.zero_le n
  | count k hle => exact hle

end UnixCodes.Posix
