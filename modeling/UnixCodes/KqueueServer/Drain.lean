import Mathlib.Data.List.Basic
import UnixCodes.Posix

/-! The loops in which `no_block_server.c` and `server.c` of `apue/kqueue_server` read from a client
and echo what they have read. -/
namespace UnixCodes.KqueueServer

open Posix

/-- `sizeof(buf)`. -/
def bufSize : ℕ := 256

/-- What the kernel answers in one turn of the loop; nobody looks at the answer to `write`. -/
structure Answers where
  read : ReadResult bufSize
  write : ∀ n, WriteResult n

inductive Call
  | read (r : ReadResult bufSize)
  | write (buf : List UInt8) (count : BitVec 64) (w : WriteResult count.toNat)

/-- How the loop was left; `running` is at its head. -/
inductive Exit
  | running
  | eof
  | again
  | failed
  deriving DecidableEq

/-- The result of `read` in a `size_t`. -/
def bytesRead : ReadResult bufSize → BitVec 64
  | .error _ => -1
  | .bytes bs _ => BitVec.ofNat 64 bs.length

def store (buf : List UInt8) : ReadResult bufSize → List UInt8
  | .error _ => buf
  | .bytes bs _ => bs ++ buf.drop bs.length

def errno : ReadResult bufSize → Option Errno
  | .error e => some e
  | .bytes _ _ => none

/-- The loop of `no_block_server.c`, over the answers of its turns. -/
def noBlockDrain (buf : List UInt8) : List Answers → List Call × Exit
  | [] => ([], .running)
  | k :: ks =>
    if bytesRead k.read > 0 then
      let rest := noBlockDrain (store buf k.read) ks
      (.read k.read :: .write (store buf k.read) (bytesRead k.read) (k.write _) :: rest.1, rest.2)
    else if bytesRead k.read = 0 then ([.read k.read], .eof)
    else if errno k.read = some EAGAIN ∨ errno k.read = some EWOULDBLOCK then
      ([.read k.read], .again)
    else ([.read k.read], .failed)

/-- The loop of `server.c`. -/
def serverDrain (buf : List UInt8) : List Answers → List Call × Exit
  | [] => ([], .running)
  | k :: ks =>
    if bytesRead k.read ≥ 0 then
      if bytesRead k.read = 0 then ([.read k.read], .eof)
      else
        let rest := serverDrain (store buf k.read) ks
        (.read k.read :: .write (store buf k.read) (bytesRead k.read) (k.write _) :: rest.1, rest.2)
    else ([.read k.read], .failed)

/-- `server.c` clears its buffer first. -/
def serverRead (ks : List Answers) : List Call × Exit := serverDrain (List.replicate bufSize 0) ks

def reads (calls : List Call) : List (ReadResult bufSize) :=
  calls.filterMap fun c => match c with
    | .read r => some r
    | .write _ _ _ => none

def received (calls : List Call) : List UInt8 :=
  calls.flatMap fun c => match c with
    | .read (.bytes bs _) => bs
    | _ => []

def sent (calls : List Call) : List UInt8 :=
  calls.flatMap fun c => match c with
    | .write buf _ w => buf.take w.accepted
    | .read _ => []

def Positive : ReadResult bufSize → Prop
  | .bytes bs _ => bs ≠ []
  | .error _ => False

/-- The loop is left at the first result that is 0 or -1 and not before; a write has the count of
the read before it; and full writes make the stream an echo. -/
structure Echoes (ks : List Answers) (r : List Call × Exit) : Prop where
  leaves : ∀ xs k ys, ks = xs ++ k :: ys → (∀ x ∈ xs, Positive x.read) → ¬ Positive k.read →
    reads r.1 = (xs ++ [k]).map Answers.read ∧ r.2 ≠ .running
  stays : (∀ k ∈ ks, Positive k.read) → reads r.1 = ks.map Answers.read ∧ r.2 = .running
  counts : ∀ xs buf n w ys, r.1 = xs ++ .write buf n w :: ys →
    ∃ xs' bs hle, xs = xs' ++ [.read (.bytes bs hle)] ∧ bs ≠ [] ∧ n.toNat = bs.length
  echo : (∀ buf n w, .write buf n w ∈ r.1 → w.accepted = n.toNat) → sent r.1 = received r.1

/-- The first result that is not positive is the end of file. -/
def EndsWell (ks : List Answers) : Prop :=
  ∀ xs k ys e, ks = xs ++ k :: ys → (∀ x ∈ xs, Positive x.read) → k.read ≠ .error e

variable {buf : List UInt8} {k : Answers} {ks : List Answers} {e : Errno} {bs : List UInt8}
  {hle : bs.length ≤ bufSize} {r : List Call × Exit}

theorem toNat_bytesRead : (bytesRead (.bytes bs hle)).toNat = bs.length := by
  have hsize : bufSize = 256 := rfl
  change (BitVec.ofNat 64 bs.length).toNat = bs.length
  rw [BitVec.toNat_ofNat, Nat.mod_eq_of_lt]
  omega

/-- -1 is the largest `size_t`. -/
theorem toNat_bytesRead_error : (bytesRead (.error e)).toNat = 2 ^ 64 - 1 :=
  show (-1 : BitVec 64).toNat = 2 ^ 64 - 1 by decide

theorem bytesRead_pos (h : k.read ≠ .bytes [] (Nat.zero_le _)) : bytesRead k.read > 0 := by
  change (0 : BitVec 64) < _
  rw [BitVec.lt_def]
  cases hr : k.read with
  | error e =>
    rw [toNat_bytesRead_error]
    decide
  | bytes bs hle =>
    have hne : bs ≠ [] := by
      rintro rfl
      exact h hr
    have hlen := List.length_pos_iff.mpr hne
    rw [toNat_bytesRead]
    simpa using hlen

theorem bytesRead_eof (h : k.read = .bytes [] (Nat.zero_le _)) : bytesRead k.read = 0 := by
  rw [h]
  rfl

/-- Only the end of file leaves the loop: everything else is written, -1 as `SIZE_MAX` bytes. -/
theorem noBlockDrain_eof (h : k.read = .bytes [] (Nat.zero_le _)) :
    noBlockDrain buf (k :: ks) = ([.read k.read], .eof) := by
  rw [noBlockDrain, bytesRead_eof h, if_neg (by decide), if_pos rfl]

theorem noBlockDrain_write (h : k.read ≠ .bytes [] (Nat.zero_le _)) :
    noBlockDrain buf (k :: ks) =
      (.read k.read :: .write (store buf k.read) (bytesRead k.read) (k.write _) ::
        (noBlockDrain (store buf k.read) ks).1, (noBlockDrain (store buf k.read) ks).2) := by
  rw [noBlockDrain, if_pos (bytesRead_pos h)]

/-- The branches for errors are never taken. -/
theorem noBlockDrain_exit :
    (noBlockDrain buf ks).2 = .running ∨ (noBlockDrain buf ks).2 = .eof := by
  induction ks generalizing buf with
  | nil => exact .inl rfl
  | cons k ks ih =>
    by_cases h : k.read = .bytes [] (Nat.zero_le _)
    · rw [noBlockDrain_eof h]
      exact .inr rfl
    · rw [noBlockDrain_write h]
      exact ih

/-- The other server's test lets the same results through. -/
theorem serverDrain_eq : serverDrain buf ks = noBlockDrain buf ks := by
  induction ks generalizing buf with
  | nil => rfl
  | cons k ks ih =>
    have hge : bytesRead k.read ≥ 0 := BitVec.le_def.mpr (Nat.zero_le _)
    rw [serverDrain, if_pos hge]
    by_cases h : k.read = .bytes [] (Nat.zero_le _)
    · rw [if_pos (bytesRead_eof h), noBlockDrain_eof h]
    · have hpos := bytesRead_pos h
      have hne : bytesRead k.read ≠ 0 := by
        intro he
        rw [he] at hpos
        exact absurd hpos (by decide)
      rw [if_neg hne, noBlockDrain_write h, ih]

theorem positive_iff : Positive k.read ↔
    k.read ≠ .bytes [] (Nat.zero_le _) ∧ ∀ e, k.read ≠ .error e := by
  cases hr : k.read with
  | error e => simp [Positive]
  | bytes bs hle => simp [Positive]

theorem endsWell_cons : EndsWell (k :: ks) ↔
    (∀ e, k.read ≠ .error e) ∧ (Positive k.read → EndsWell ks) := by
  constructor
  · intro h
    constructor
    · intro e
      exact h [] k ks e rfl (by simp)
    · intro hpos xs x ys e he hall
      exact h (k :: xs) x ys e (by simp [he]) (List.forall_mem_cons.mpr ⟨hpos, hall⟩)
  · rintro ⟨hk, hks⟩ xs x ys e he hall
    cases xs with
    | nil =>
      obtain ⟨rfl, rfl⟩ := List.cons.inj he
      exact hk e
    | cons x' xs =>
      obtain ⟨rfl, hrest⟩ := List.cons.inj he
      obtain ⟨hpos, hall⟩ := List.forall_mem_cons.mp hall
      exact hks hpos xs x ys e hrest hall

theorem echoes_nil : Echoes [] ([], .running) := by
  refine ⟨?_, fun _ => ⟨rfl, rfl⟩, ?_, fun _ => rfl⟩
  · intro xs k ys he
    simp at he
  · intro xs buf n w ys he
    simp at he

theorem echoes_eof (h : k.read = .bytes [] (Nat.zero_le _)) :
    Echoes (k :: ks) ([.read k.read], .eof) := by
  have hnot : ¬ Positive k.read := fun hpos => (positive_iff.mp hpos).1 h
  refine ⟨?_, ?_, ?_, ?_⟩
  · intro xs x ys he hall _
    cases xs with
    | nil =>
      obtain ⟨rfl, -⟩ := List.cons.inj he
      exact ⟨rfl, show Exit.eof ≠ .running by decide⟩
    | cons x' xs =>
      obtain ⟨rfl, -⟩ := List.cons.inj he
      exact absurd (hall k List.mem_cons_self) hnot
  · intro hall
    exact absurd (hall k List.mem_cons_self) hnot
  · intro xs buf n w ys he
    cases xs with
    | nil => simp at he
    | cons x xs =>
      obtain ⟨-, hrest⟩ := List.cons.inj he
      simp at hrest
  · intro _
    rw [h]
    rfl

/-- A turn that reads some bytes and writes as many. -/
theorem Echoes.cons (h : Echoes ks r) (hr : k.read = .bytes bs hle) (hne : bs ≠ []) :
    Echoes (k :: ks)
      (.read k.read :: .write (store buf k.read) (bytesRead k.read) (k.write _) :: r.1, r.2) := by
  have hpos : Positive k.read := by
    rw [hr]
    exact hne
  have hcount : (bytesRead k.read).toNat = bs.length := by rw [hr, toNat_bytesRead]
  refine ⟨?_, ?_, ?_, ?_⟩
  · intro xs x ys he hall hx
    cases xs with
    | nil =>
      obtain ⟨rfl, -⟩ := List.cons.inj he
      exact absurd hpos hx
    | cons x' xs =>
      obtain ⟨rfl, hrest⟩ := List.cons.inj he
      obtain ⟨hreads, hexit⟩ := h.leaves xs x ys hrest (List.forall_mem_cons.mp hall).2 hx
      exact ⟨congrArg (List.cons k.read) hreads, hexit⟩
  · intro hall
    obtain ⟨hreads, hexit⟩ := h.stays (List.forall_mem_cons.mp hall).2
    exact ⟨congrArg (List.cons k.read) hreads, hexit⟩
  · intro xs buf' n w ys he
    rcases xs with _ | ⟨x, _ | ⟨x', xs⟩⟩
    · simp at he
    · obtain ⟨rfl, hrest⟩ := List.cons.inj he
      obtain ⟨hw, -⟩ := List.cons.inj hrest
      refine ⟨[], bs, hle, by rw [hr]; rfl, hne, ?_⟩
      injection hw with _ hn
      rw [← hn, hcount]
    · obtain ⟨rfl, hrest⟩ := List.cons.inj he
      obtain ⟨rfl, hcalls⟩ := List.cons.inj hrest
      obtain ⟨xs', bs', hle', rfl, hne', hn⟩ := h.counts xs buf' n w ys hcalls
      exact ⟨.read k.read :: .write (store buf k.read) (bytesRead k.read) (k.write _) :: xs', bs',
        hle', rfl, hne', hn⟩
  · intro hfull
    have hrest := h.echo fun buf' n w hmem => hfull buf' n w (by simp [hmem])
    have htaken := hfull (store buf k.read) (bytesRead k.read) (k.write _) (by simp)
    have hsent : (store buf k.read).take (k.write (bytesRead k.read).toNat).accepted = bs := by
      rw [htaken, hcount, hr]
      simp [store]
    have hreceived : received (.read k.read :: r.1) = bs ++ received r.1 := by
      rw [hr]
      rfl
    calc sent (.read k.read :: .write (store buf k.read) (bytesRead k.read) (k.write _) :: r.1)
        = (store buf k.read).take (k.write (bytesRead k.read).toNat).accepted ++ sent r.1 := rfl
      _ = bs ++ received r.1 := by rw [hsent, hrest]
      _ = received (.read k.read :: r.1) := hreceived.symm

theorem echoes_of_endsWell (h : EndsWell ks) : Echoes ks (noBlockDrain buf ks) := by
  induction ks generalizing buf with
  | nil => exact echoes_nil
  | cons k ks ih =>
    obtain ⟨hk, hks⟩ := endsWell_cons.mp h
    by_cases heof : k.read = .bytes [] (Nat.zero_le _)
    · rw [noBlockDrain_eof heof]
      exact echoes_eof heof
    · rw [noBlockDrain_write heof]
      have hpos : Positive k.read := positive_iff.mpr ⟨heof, hk⟩
      cases hr : k.read with
      | error e => exact absurd hr (hk e)
      | bytes bs hle =>
        rw [← hr]
        refine (ih (hks hpos)).cons hr ?_
        rw [hr] at hpos
        exact hpos

/-- A result of -1 is written. -/
theorem error_written (buf : List UInt8) {xs : List Answers} (ys : List Answers)
    (hall : ∀ x ∈ xs, Positive x.read) (hk : k.read = .error e) :
    ∃ as buf' w bs, (noBlockDrain buf (xs ++ k :: ys)).1 =
      as ++ [.read (.error e)] ++ .write buf' (bytesRead (.error e)) w :: bs := by
  induction xs generalizing buf with
  | nil =>
    rw [List.nil_append, noBlockDrain_write (by simp [hk]), hk]
    exact ⟨[], _, _, _, rfl⟩
  | cons x xs ih =>
    obtain ⟨hx, hall⟩ := List.forall_mem_cons.mp hall
    obtain ⟨as, buf', w, bs, he⟩ := ih (store buf x.read) hall
    rw [List.cons_append, noBlockDrain_write (positive_iff.mp hx).1, he]
    exact ⟨.read x.read :: .write (store buf x.read) (bytesRead x.read) (x.write _) :: as, buf', w,
      bs, rfl⟩

theorem endsWell_of_echoes (h : Echoes ks (noBlockDrain buf ks)) : EndsWell ks := by
  rintro xs k ys e rfl hall hk
  obtain ⟨as, buf', w, bs, he⟩ := error_written buf ys hall hk
  obtain ⟨xs', bs', hle, hlast, -⟩ := h.counts _ buf' _ w bs he
  obtain ⟨-, hread⟩ := List.append_inj' hlast rfl
  simp at hread

/-- Both loops echo what they receive exactly if no read fails before the end of file. -/
theorem echoes_iff (buf : List UInt8) (ks : List Answers) :
    (Echoes ks (noBlockDrain buf ks) ↔ EndsWell ks) ∧
      (Echoes ks (serverRead ks) ↔ EndsWell ks) := by
  constructor
  · exact ⟨endsWell_of_echoes, echoes_of_endsWell⟩
  · unfold serverRead
    rw [serverDrain_eq]
    exact ⟨endsWell_of_echoes, echoes_of_endsWell⟩

/-- A byte is echoed, then the socket is drained: the loop goes on with a write of -1 bytes. -/
theorem again_stays : ¬ ∀ (buf : List UInt8) (ks : List Answers),
    Echoes ks (noBlockDrain buf ks) ∧ Echoes ks (serverRead ks) := by
  intro hall
  let full (n : ℕ) : WriteResult n := .count n le_rfl
  let data : Answers := ⟨.bytes [71] (by decide), full⟩
  let drained : Answers := ⟨.error EAGAIN, fun _ => .error EAGAIN⟩
  have hends := endsWell_of_echoes (hall [] [data, drained]).1
  refine hends [data] drained [] EAGAIN rfl ?_ rfl
  intro x hx
  obtain rfl := List.mem_singleton.mp hx
  exact List.cons_ne_nil 71 []

end UnixCodes.KqueueServer
