import UnixCodes.AcoHttpd.Routine
import UnixCodes.Lib.Transition
import Mathlib.Data.List.Chain

/-! What a routine does between reading data and closing the connection. -/
namespace UnixCodes.AcoHttpd

open Posix Transition

/-- A call of `client_routine` on its connection; `poll_delete` closes if `EV_DELETE` succeeds. -/
inductive Call
  | read (r : ReadResult bufSize)
  | write (w : WriteResult resp.length)
  | pollDelete (delete : Option Errno)

/-- A routine with its calls so far. -/
structure Conversation where
  pc : Pc
  calls : List Call

/-- The call that the routine makes at a point. -/
def callAt (pc : Pc) (k : Answers) : Option Call :=
  match pc with
  | .reading => some (.read k.read)
  | .writing => some (.write k.write)
  | .deleting => some (.pollDelete k.delete)
  | _ => none

/-- `none` is `aco_resume`. -/
inductive Conversation.Step : Conversation → Option Answers → Conversation → Prop
  | resume {c : Conversation} {pc : Pc} (h : acoResume c.pc = some pc) :
      Step c none { c with pc := pc }
  | call {c : Conversation} (k : Answers) (h : c.pc.Running) :
      Step c (some k) ⟨clientRoutine c.pc k, c.calls ++ (callAt c.pc k).toList⟩

def conversation : System Conversation (Option Answers) where
  Initial c := c = ⟨.created, []⟩
  Step := Conversation.Step

def HasData : ReadResult bufSize → Prop
  | .bytes bs _ => bs ≠ []
  | .error _ => False

def eof : ReadResult bufSize := .bytes [] (Nat.zero_le _)

/-- Between data and a close that follows the end of file there is a write. -/
def Answered (calls : List Call) : Prop :=
  ∀ xs r ys zs, HasData r →
    calls = xs ++ .read r :: (ys ++ .read eof :: .pollDelete none :: zs) → ∃ w, .write w ∈ ys

def reads (calls : List Call) : List (ReadResult bufSize) :=
  calls.filterMap fun c => match c with
    | .read r => some r
    | _ => none

/-- Between data and the end of file there is a read that finds nothing. -/
def Separated (rs : List (ReadResult bufSize)) : Prop :=
  ∀ xs r ys zs, HasData r → rs = xs ++ r :: (ys ++ eof :: zs) → .error EAGAIN ∈ ys

variable {c d : Conversation} {a : Option Answers} {k : Answers} {calls xs ys : List Call}
  {x y : Call} {pc : Pc}

/-- Where a call is made. -/
def site : Call → Pc
  | .read _ => .reading
  | .write _ => .writing
  | .pollDelete _ => .deleting

/-- Where the next call is made, whatever switches come in between. -/
def after : Call → Pc
  | .read (.bytes [] _) => .deleting
  | .read (.bytes (_ :: _) _) => .reading
  | .read (.error e) => if e = EAGAIN then .writing else if e = EINTR then .reading else .deleting
  | .write w => if w.accepted = 0 then .deleting else .reading
  | .pollDelete _ => .exiting

/-- The point at which the routine makes its next call, or is through. -/
def leads : Pc → Pc
  | .created | .yielding | .yielded => .reading
  | .ended => .exiting
  | pc => pc

/-- Each call is made where the call before it leads. -/
structure InOrder (c : Conversation) : Prop where
  chain : c.calls.IsChain fun x y => site y = after x
  last : leads c.pc = (c.calls.getLast?.map after).getD .reading

theorem inOrder_initial (h : conversation.Initial c) : InOrder c := by
  obtain rfl : c = ⟨.created, []⟩ := h
  exact ⟨.nil, rfl⟩

theorem isChain_concat {R : Call → Call → Prop} (h : xs.IsChain R)
    (hy : ∀ z, xs.getLast? = some z → R z y) : (xs ++ [y]).IsChain R := by
  apply List.isChain_append.mpr
  refine ⟨h, .singleton y, ?_⟩
  intro z hz w hw
  obtain rfl : y = w := by simpa using hw
  exact hy z hz

/-- A call made where the routine stands keeps the order. -/
theorem InOrder.call (h : InOrder c) (hsite : site y = leads c.pc) (hnext : leads pc = after y) :
    InOrder ⟨pc, c.calls ++ [y]⟩ := by
  constructor
  · apply isChain_concat h.chain
    intro z hz
    rw [hsite, h.last, hz]
    rfl
  · simpa using hnext

theorem InOrder.switch (h : InOrder c) (hpc : leads pc = leads c.pc) : InOrder ⟨pc, c.calls⟩ :=
  ⟨h.chain, hpc.trans h.last⟩

theorem inOrder_step (h : Conversation.Step c a d) (hc : InOrder c) : InOrder d := by
  cases h with
  | @resume pc h =>
    apply hc.switch
    cases hpc : c.pc <;> simp_all [acoResume, leads]
    all_goals simp [← h]
  | call k hrun =>
    have hstep := clientRoutine_step (k := k) hrun
    generalize hpc : c.pc = pc at *
    generalize clientRoutine pc k = pc' at *
    cases hstep with
    | eof hr => exact hc.call (by simp [site, leads, hpc]) (by simp [leads, after, hr])
    | @data bs hle hne hr =>
      obtain ⟨b, bs, rfl⟩ := List.exists_cons_of_ne_nil hne
      exact hc.call (by simp [site, leads, hpc]) (by simp [leads, after, hr])
    | again hr => exact hc.call (by simp [site, leads, hpc]) (by simp [leads, after, hr])
    | interrupted hr =>
      exact hc.call (by simp [site, leads, hpc]) (by simp [leads, after, hr, EINTR, EAGAIN])
    | failed ha hi hr =>
      exact hc.call (by simp [site, leads, hpc]) (by simp [leads, after, hr, ha, hi])
    | refused hno =>
      have hzero : k.write.accepted = 0 := by
        cases hw : k.write with
        | error => rfl
        | count wn hle => exact hno wn hle hw
      exact hc.call (by simp [site, leads, hpc]) (by simp [leads, after, hzero])
    | @written wn hle hpos hw =>
      have hne : k.write.accepted ≠ 0 := by
        rw [hw]
        exact hpos.ne'
      exact hc.call (by simp [site, leads, hpc]) (by simp [leads, after, hne])
    | yield =>
      simpa [callAt] using hc.switch (show leads .yielded = leads c.pc by simp [leads, hpc])
    | delete => exact hc.call (by simp [site, leads, hpc]) (by simp [leads, after])
    | exit => simpa [callAt] using hc.switch (show leads .ended = leads c.pc by simp [leads, hpc])

theorem inOrder_reachable (h : conversation.Reachable c) : InOrder c :=
  System.reachable_invariant (fun _ => inOrder_initial) (fun _ _ _ => inOrder_step) h

theorem next_of_chain (h : calls.IsChain fun x y => site y = after x)
    (he : calls = xs ++ x :: y :: ys) : site y = after x := by
  rw [he] at h
  exact (List.isChain_cons_cons.mp (List.isChain_append.mp h).2.1).1

/-- The close is the last call. -/
theorem nothing_after_delete (h : calls.IsChain fun x y => site y = after x) {e : Option Errno}
    (he : calls = xs ++ .pollDelete e :: ys) : ys = [] := by
  cases ys with
  | nil => rfl
  | cons y ys =>
    have hsite := next_of_chain h he
    cases y <;> cases hsite

theorem eof_then_delete (h : calls.IsChain fun x y => site y = after x)
    (he : calls = xs ++ .read eof :: y :: ys) : ∃ e, y = .pollDelete e ∧ ys = [] := by
  have hsite := next_of_chain h he
  cases y with
  | read r => cases hsite
  | write w => cases hsite
  | pollDelete e =>
    have he' : calls = (xs ++ [.read eof]) ++ .pollDelete e :: ys := by simp [he]
    exact ⟨e, rfl, nothing_after_delete h he'⟩

/-- Of a closed connection, the end of file is followed by the close and by nothing else. -/
theorem closed_after_eof (h : calls.IsChain fun x y => site y = after x)
    (he : calls = xs ++ .read eof :: ys) (hclose : .pollDelete none ∈ calls) :
    ys = [.pollDelete none] := by
  obtain ⟨as, bs, hsplit⟩ := List.append_of_mem hclose
  obtain rfl := nothing_after_delete h hsplit
  have hlast := congrArg List.getLast? (he.symm.trans hsplit)
  cases ys with
  | nil => simp at hlast
  | cons y ys =>
    obtain ⟨e, rfl, rfl⟩ := eof_then_delete h he
    simpa using hlast

theorem again_then_write (h : calls.IsChain fun x y => site y = after x)
    (he : calls = xs ++ .read (.error EAGAIN) :: y :: ys) : ∃ w, y = .write w := by
  have hsite := next_of_chain h he
  cases y with
  | read r => simp [site, after] at hsite
  | write w => exact ⟨w, rfl⟩
  | pollDelete e => simp [site, after] at hsite

theorem write_after_again (h : calls.IsChain fun x y => site y = after x)
    {w : WriteResult resp.length} (he : calls = xs ++ x :: .write w :: ys) :
    x = .read (.error EAGAIN) := by
  have hsite := next_of_chain h he
  cases x with
  | read r =>
    cases r with
    | error e =>
      by_cases ha : e = EAGAIN
      · rw [ha]
      · exfalso
        by_cases hi : e = EINTR
        · subst hi
          simp [site, after, ha] at hsite
        · simp [site, after, ha, hi] at hsite
    | bytes bs hle => cases bs <;> simp [site, after] at hsite
  | write v => by_cases hv : v.accepted = 0 <;> simp [site, after, hv] at hsite
  | pollDelete e => simp [site, after] at hsite

theorem mem_reads {r : ReadResult bufSize} : r ∈ reads calls ↔ .read r ∈ calls := by
  unfold reads
  rw [List.mem_filterMap]
  constructor
  · rintro ⟨x, hx, he⟩
    cases x with
    | read r' => exact Option.some.inj he ▸ hx
    | write w => cases he
    | pollDelete e => cases he
  · intro hr
    exact ⟨.read r, hr, rfl⟩

theorem reads_split {r : ReadResult bufSize} {rs rs' : List (ReadResult bufSize)}
    (h : reads calls = rs ++ r :: rs') :
    ∃ xs ys, calls = xs ++ .read r :: ys ∧ reads xs = rs ∧ reads ys = rs' := by
  obtain ⟨xs, zs, rfl, hxs, hzs⟩ := List.filterMap_eq_append_iff.mp h
  obtain ⟨us, x, ys, rfl, hus, hx, hys⟩ := List.filterMap_eq_cons_iff.mp hzs
  have hread : x = .read r := by
    cases x with
    | read r' => rw [Option.some.inj hx]
    | write w => cases hx
    | pollDelete e => cases hx
  refine ⟨xs ++ us, ys, by simp [hread], ?_, hys⟩
  have hnone : reads us = [] := List.filterMap_eq_nil_iff.mpr hus
  simp only [reads, List.filterMap_append] at hxs hnone ⊢
  rw [hxs, hnone, List.append_nil]

theorem reads_append : reads (xs ++ ys) = reads xs ++ reads ys := List.filterMap_append

theorem separated_of_answered (h : calls.IsChain fun x y => site y = after x)
    (ha : Answered calls) (hclose : .pollDelete none ∈ calls) : Separated (reads calls) := by
  intro rs r rs' rs'' hdata he
  obtain ⟨xs, us, rfl, -, hus⟩ := reads_split he
  obtain ⟨ys, zs, rfl, rfl, -⟩ := reads_split hus
  have hzs : zs = [.pollDelete none] := by
    have hsplit : xs ++ .read r :: (ys ++ .read eof :: zs) =
        (xs ++ .read r :: ys) ++ .read eof :: zs := by simp
    exact closed_after_eof h hsplit hclose
  subst hzs
  obtain ⟨w, hw⟩ := ha xs r ys [] hdata rfl
  obtain ⟨as, bs, rfl⟩ := List.append_of_mem hw
  rcases List.eq_nil_or_concat' as with rfl | ⟨as, x, rfl⟩
  · have hsplit : xs ++ .read r :: ([] ++ .write w :: bs ++ [.read eof, .pollDelete none]) =
        xs ++ .read r :: .write w :: (bs ++ [.read eof, .pollDelete none]) := by simp
    cases write_after_again h hsplit
    exact hdata.elim
  · have hsplit : xs ++ .read r :: (as ++ [x] ++ .write w :: bs ++ [.read eof, .pollDelete none]) =
        (xs ++ .read r :: as) ++ x :: .write w :: (bs ++ [.read eof, .pollDelete none]) := by simp
    apply mem_reads.mpr
    simp [write_after_again h hsplit]

theorem answered_of_separated (h : calls.IsChain fun x y => site y = after x)
    (hs : .pollDelete none ∈ calls → Separated (reads calls)) : Answered calls := by
  rintro xs r ys zs hdata rfl
  have hagain : .error EAGAIN ∈ reads ys := by
    apply hs (by simp) (reads xs) r (reads ys) (reads (.pollDelete none :: zs)) hdata
    rw [reads_append]
    change _ ++ r :: reads (ys ++ .read eof :: .pollDelete none :: zs) = _
    rw [reads_append]
    rfl
  obtain ⟨as, bs, rfl⟩ := List.append_of_mem (mem_reads.mp hagain)
  cases bs with
  | nil =>
    have hsplit : xs ++ .read r :: (as ++ [.read (.error EAGAIN)] ++
        .read eof :: .pollDelete none :: zs) = (xs ++ .read r :: as) ++
          .read (.error EAGAIN) :: .read eof :: .pollDelete none :: zs := by simp
    obtain ⟨w, hw⟩ := again_then_write h hsplit
    cases hw
  | cons b bs =>
    have hsplit : xs ++ .read r :: (as ++ .read (.error EAGAIN) :: b :: bs ++
        .read eof :: .pollDelete none :: zs) = (xs ++ .read r :: as) ++
          .read (.error EAGAIN) :: b :: (bs ++ .read eof :: .pollDelete none :: zs) := by simp
    obtain ⟨w, rfl⟩ := again_then_write h hsplit
    exact ⟨w, by simp⟩

/-- Received data is answered before the connection is closed at its end exactly if a read finds
nothing in between. -/
theorem answered_iff_separated (h : conversation.Reachable c) :
    Answered c.calls ↔ (.pollDelete none ∈ c.calls → Separated (reads c.calls)) :=
  have hchain := (inOrder_reachable h).chain
  ⟨separated_of_answered hchain, answered_of_separated hchain⟩

/-- A byte and the client's half-close are queued when the routine is resumed. -/
theorem halfClose_run : ∃ c : Conversation, conversation.Reachable c ∧
    c.calls = [.read (.bytes [71] (by decide)), .read eof, .pollDelete none] := by
  have hle : [(71 : UInt8)].length ≤ bufSize := by decide
  exact ⟨_, ⟨⟨.created, []⟩, _, rfl,
    .stepL (.resume rfl) <|
    .stepL (.call (.reads (.bytes [71] hle)) trivial) <|
    .stepL (.call (.reads eof) trivial) <|
    .stepL (.call (.reads eof) trivial) .refl⟩, rfl⟩

theorem answered_iff_separated_halfClose : ∃ c : Conversation,
    conversation.Reachable c ∧ .pollDelete none ∈ c.calls ∧
      (Answered c.calls ↔ (.pollDelete none ∈ c.calls → Separated (reads c.calls))) := by
  obtain ⟨c, hc, hcalls⟩ := halfClose_run
  exact ⟨c, hc, by simp [hcalls], answered_iff_separated hc⟩

/-- The connection is closed without an answer. -/
theorem halfClose_unanswered :
    ¬ ∀ c : Conversation, conversation.Reachable c → Answered c.calls := by
  intro hall
  obtain ⟨c, hc, hcalls⟩ := halfClose_run
  have hdata : HasData (.bytes [71] (by decide)) := List.cons_ne_nil 71 []
  obtain ⟨w, hw⟩ := hall c hc [] _ [] [] hdata hcalls
  cases hw

end UnixCodes.AcoHttpd
