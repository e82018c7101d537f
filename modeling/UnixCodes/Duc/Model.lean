import UnixCodes.DirCount.Tree
import UnixCodes.Lib.Memory

/-! `caculate_dir` of `duc.c`, which calls itself with the path of each subdirectory. -/
namespace UnixCodes.Duc

open DirCount (DType Counter count)

/-- The memory behind a pointer, of which `capacity` bytes have been allocated. A write past them
is made all the same. -/
structure Buffer where
  capacity : ℕ
  bytes : List UInt8

/-- What ends the program: a null pointer, a string that no NUL ends, and more nested calls than
there is room for. -/
inductive Fault
  | null
  | unterminated
  | depth
  deriving DecidableEq

namespace Buffer

def string (b : Buffer) : Except Fault (List UInt8) :=
  match cString b.bytes with
  | some s => .ok s
  | none => .error .unterminated

/-- The string and its NUL are within what has been allocated. -/
def Fits (b : Buffer) : Prop := ∃ s, b.string = .ok s ∧ s.length + 1 ≤ b.capacity

/-- A buffer of the size of a string. -/
def exact (s : List UInt8) : Buffer := ⟨s.length + 1, s ++ [0]⟩

/-- The block that `realloc` returns; the bytes that are new in it are left out. -/
def realloc (b : Buffer) (size : ℕ) : Buffer := ⟨size, b.bytes.take (min b.capacity size)⟩

end Buffer

/-- Whether the calls made for an entry find memory. -/
structure Answers where
  realloc : Bool
  strdup : Bool

def strlen (b : Buffer) : Except Fault ℕ := do
  let s ← b.string
  return s.length

def strdup (b : Buffer) (memory : Bool) : Except Fault (Option Buffer) := do
  let s ← b.string
  return if memory then some (.exact s) else none

def strcat (dst : Option Buffer) (src : List UInt8) : Except Fault Buffer :=
  match dst with
  | none => .error .null
  | some b => do
    let n ← strlen b
    return { b with bytes := overwrite b.bytes n (src ++ [0]) }

def dot : UInt8 := Char.toUInt8 '.'

def slash : UInt8 := Char.toUInt8 '/'

structure Entry where
  name : CStr
  type : DType

namespace Entry

def Dots (e : Entry) : Prop := e.name.bytes = [dot] ∨ e.name.bytes = [dot, dot]

instance (e : Entry) : Decidable e.Dots := inferInstanceAs (Decidable (_ ∨ _))

/-- The entry leads to a recursive call. -/
def Subdirectory (e : Entry) : Prop := e.type = .dir ∧ ¬ e.Dots

instance (e : Entry) : Decidable e.Subdirectory := inferInstanceAs (Decidable (_ ∧ _))

end Entry

/-- One call of `caculate_dir`: `file_path`, the buffers as each `strcat` has left them, and the
arguments of the recursive calls. -/
structure Call where
  filePath : Option Buffer
  written : List Buffer
  received : List Buffer

def Call.start (filePath : Buffer) : Call := ⟨some filePath, [], []⟩

abbrev Counts := Counter → ℕ

/-- `sizeof(file_path) - strlen(file_path) < strlen(dt->d_name)`. -/
def TooSmall (path name : ℕ) : Prop := (8 : UInt64) - UInt64.ofNat path < UInt64.ofNat name

instance (path name : ℕ) : Decidable (TooSmall path name) := inferInstanceAs (Decidable (_ < _))

/-- What follows the `realloc`. -/
def descend (callee : Buffer → Counts → Except Fault Counts) (c : Call) (filePath : Buffer)
    (name : CStr) (memory : Bool) (counts : Counts) : Except Fault (Call × Counts) := do
  let newp ← strdup filePath memory
  let newp ← strcat newp [slash]
  let newp' ← strcat (some newp) name.bytes
  let counts ← callee newp' counts
  return (⟨some filePath, c.written ++ [newp, newp'], c.received ++ [newp']⟩, counts)

/-- The case of `DT_DIR` behind the test for `.` and `..`; `sizeof` yields the size of a pointer. -/
def subdirectory (callee : Buffer → Counts → Except Fault Counts) (c : Call) (name : CStr)
    (a : Answers) (counts : Counts) : Except Fault (Call × Counts) :=
  match c.filePath with
  | none => .error .null
  | some filePath => do
    let n ← strlen filePath
    if TooSmall n name.bytes.length then
      if a.realloc then descend callee c (filePath.realloc 8) name a.strdup counts
      else return ({ c with filePath := none }, counts)
    else descend callee c filePath name a.strdup counts

/-- The body of the loop over `readdir`. -/
def entry (callee : Buffer → Counts → Except Fault Counts) (c : Call) (e : Entry) (a : Answers)
    (counts : Counts) : Except Fault (Call × Counts) :=
  let counts := count counts e.type
  if e.Subdirectory then subdirectory callee c e.name a counts else .ok (c, counts)

/-- The loop over `readdir`. -/
def entries (callee : Buffer → Counts → Except Fault Counts) :
    List (Entry × Answers) → Call → Counts → Except Fault (Call × Counts)
  | [], c, counts => .ok (c, counts)
  | (e, a) :: rest, c, counts => do
    let (c, counts) ← entry callee c e a counts
    entries callee rest c counts

/-- What `opendir` and `readdir` find under a path, if it can be opened. -/
abbrev FileSystem := List UInt8 → Option (List (Entry × Answers))

/-- With as many nested calls as the stack has room for. -/
def caculateDir (fs : FileSystem) : ℕ → Buffer → Counts → Except Fault Counts
  | 0, _, _ => .error .depth
  | depth + 1, filePath, counts => do
    let path ← filePath.string
    match fs path with
    | none => return counts
    | some listing =>
      let (_, counts) ← entries (caculateDir fs depth) listing (.start filePath) counts
      return counts

end UnixCodes.Duc
