import UnixCodes.Posix

/-! `client_routine` of `aco_httpd/main.c`, from one system call or context switch to the next. -/
namespace UnixCodes.AcoHttpd

open Posix

def resp : List UInt8 :=
  ("HTTP/1.1 200 OK\r\n" ++
   "Content-Type: text/plain\r\n" ++
   "Content-Length: 14\r\n" ++
   "\r\n" ++
   "Hello, world!\n").toList.map fun c => c.toUInt8

/-- `sizeof(buf)`. -/
def bufSize : ℕ := 256

/-- What `client_routine` does next, or which switch it is waiting behind. -/
inductive Pc
  | created
  | reading
  | writing
  | yielding
  | yielded
  | deleting
  | exiting
  | ended
  deriving DecidableEq

/-- What the kernel answers to whichever call the routine makes; `delete` is `EV_DELETE`. -/
structure Answers where
  read : ReadResult bufSize
  write : WriteResult resp.length
  delete : Option Errno

/-- The answers of a round: `read` says what it says, everything else succeeds. -/
def Answers.reads (r : ReadResult bufSize) : Answers := ⟨r, .count resp.length le_rfl, none⟩

/-- The main coroutine waits in `aco_resume` while the routine runs. -/
def Pc.Running : Pc → Prop
  | .reading | .writing | .yielding | .deleting | .exiting => True
  | .created | .yielded | .ended => False

instance : DecidablePred Pc.Running
  | .reading | .writing | .yielding | .deleting | .exiting => isTrue trivial
  | .created | .yielded | .ended => isFalse not_false

/-- `aco_resume` asserts that the routine has not ended. -/
def acoResume : Pc → Option Pc
  | .created | .yielded => some .reading
  | _ => none

/-- The next call of `client_routine`. -/
def clientRoutine (pc : Pc) (k : Answers) : Pc :=
  match pc with
  | .reading =>
    match k.read with
    | .bytes [] _ => .deleting
    | .bytes (_ :: _) _ => .reading
    | .error e => if e = EAGAIN then .writing else if e = EINTR then .reading else .deleting
  | .writing =>
    match k.write with
    | .error _ => .deleting
    | .count wn _ => if wn ≤ 0 then .deleting else .yielding
  | .yielding => .yielded
  | .deleting => .exiting
  | .exiting => .ended
  | pc => pc

/-- All that one call of the routine can do. -/
inductive RoutineStep (k : Answers) : Pc → Pc → Prop
  | eof : k.read = .bytes [] (Nat.zero_le _) → RoutineStep k .reading .deleting
  | data {bs hle} : bs ≠ [] → k.read = .bytes bs hle → RoutineStep k .reading .reading
  | again : k.read = .error EAGAIN → RoutineStep k .reading .writing
  | interrupted : k.read = .error EINTR → RoutineStep k .reading .reading
  | failed {e} : e ≠ EAGAIN → e ≠ EINTR → k.read = .error e → RoutineStep k .reading .deleting
  | refused : (∀ wn hle, k.write = .count wn hle → wn = 0) → RoutineStep k .writing .deleting
  | written {wn hle} : 0 < wn → k.write = .count wn hle → RoutineStep k .writing .yielding
  | yield : RoutineStep k .yielding .yielded
  | delete : RoutineStep k .deleting .exiting
  | exit : RoutineStep k .exiting .ended

theorem clientRoutine_step {pc : Pc} {k : Answers} (h : pc.Running) :
    RoutineStep k pc (clientRoutine pc k) := by
  cases pc with
  | created => exact h.elim
  | yielded => exact h.elim
  | ended => exact h.elim
  | yielding => exact .yield
  | deleting => exact .delete
  | exiting => exact .exit
  | reading =>
    cases hr : k.read with
    | error e =>
      simp only [clientRoutine, hr]
      by_cases hagain : e = EAGAIN
      · subst hagain
        exact .again hr
      · rw [if_neg hagain]
        by_cases hintr : e = EINTR
        · subst hintr
          exact .interrupted hr
        · rw [if_neg hintr]
          exact .failed hagain hintr hr
    | bytes bs hle =>
      cases bs with
      | nil =>
        simp only [clientRoutine, hr]
        exact .eof hr
      | cons x xs =>
        simp only [clientRoutine, hr]
        exact .data (by simp) hr
  | writing =>
    cases hw : k.write with
    | error e =>
      simp only [clientRoutine, hw]
      exact .refused (by simp [hw])
    | count wn hle =>
      simp only [clientRoutine, hw]
      by_cases hpos : wn ≤ 0
      · rw [if_pos hpos]
        apply RoutineStep.refused
        intro n hn he
        obtain rfl : wn = n := by simpa [hw] using he
        omega
      · rw [if_neg hpos]
        exact .written (by omega) hw

end UnixCodes.AcoHttpd
