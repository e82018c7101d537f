import UnixCodes.AcoHttpd.Routine
import UnixCodes.Lib.Transition
import Mathlib.Data.List.Basic

/-! The byte stream that one routine sends, over all its resumptions. -/
namespace UnixCodes.AcoHttpd

open Posix Transition

/-- A routine with the answers to its writes so far. -/
structure Responder where
  pc : Pc
  writes : List (WriteResult resp.length)

/-- `none` is `aco_resume`. -/
inductive Responder.Step : Responder → Option Answers → Responder → Prop
  | resume {r : Responder} {pc : Pc} (h : acoResume r.pc = some pc) :
      Step r none { r with pc := pc }
  | call {r : Responder} (k : Answers) (h : r.pc.Running) :
      Step r (some k)
        ⟨clientRoutine r.pc k, if r.pc = .writing then r.writes ++ [k.write] else r.writes⟩

def responder : System Responder (Option Answers) where
  Initial r := r = ⟨.created, []⟩
  Step := Responder.Step

/-- What each write has put on the stream. -/
def chunks (writes : List (WriteResult resp.length)) : List (List UInt8) :=
  writes.map fun w => resp.take w.accepted

def repeated (n : ℕ) : List UInt8 := (List.replicate n resp).flatten

/-- The stream is a prefix of `resp` repeated, and bytes follow only whole responses. -/
def Framed (chunks : List (List UInt8)) : Prop :=
  (∃ n, chunks.flatten <+: repeated n) ∧
    ∀ xs y ys, chunks = xs ++ y :: ys → y ≠ [] → ∃ n, xs.flatten = repeated n

/-- A write that takes bytes comes after one that took the whole response. -/
def Uncut (writes : List (WriteResult resp.length)) : Prop :=
  ∀ xs w y ys, writes = xs ++ w :: y :: ys → 0 < y.accepted → w.accepted = resp.length

variable {r r' : Responder} {a : Option Answers} {k : Answers}
  {writes xs ys : List (WriteResult resp.length)} {w y : WriteResult resp.length}

theorem repeated_length (n : ℕ) : (repeated n).length = n * resp.length := by
  simp [repeated]

theorem repeated_succ (n : ℕ) : repeated (n + 1) = repeated n ++ resp := by
  simp [repeated, List.replicate_succ']

/-- A write fails at most once, and then the routine is on its way out. -/
structure Sending (r : Responder) : Prop where
  took : ∀ w ∈ r.writes.dropLast, 0 < w.accepted
  alive : r.pc = .created ∨ r.pc = .reading ∨ r.pc = .writing ∨ r.pc = .yielding ∨
    r.pc = .yielded → ∀ w ∈ r.writes, 0 < w.accepted

theorem sending_initial (h : responder.Initial r) : Sending r := by
  obtain rfl : r = ⟨.created, []⟩ := h
  exact ⟨by simp, by simp⟩

theorem sending_step (h : responder.Step r a r') (hr : Sending r) : Sending r' := by
  obtain ⟨htook, halive⟩ := hr
  cases h with
  | @resume pc h =>
    refine ⟨htook, fun _ => halive ?_⟩
    cases hpc : r.pc <;> simp_all [acoResume]
  | call k hrun =>
    have hstep := clientRoutine_step (k := k) hrun
    generalize hpc : r.pc = pc at *
    generalize clientRoutine pc k = pc' at *
    cases hstep with
    | eof => exact ⟨htook, by simp⟩
    | data => exact ⟨htook, fun _ => halive (by simp)⟩
    | again => exact ⟨htook, fun _ => halive (by simp)⟩
    | interrupted => exact ⟨htook, fun _ => halive (by simp)⟩
    | failed => exact ⟨htook, by simp⟩
    | refused =>
      refine ⟨?_, by simp⟩
      simpa using halive (by simp)
    | @written wn hle hpos hw =>
      have hall := halive (by simp)
      refine ⟨by simpa using hall, fun _ w hmem => ?_⟩
      rw [if_pos rfl, List.mem_append, List.mem_singleton] at hmem
      rcases hmem with hmem | rfl
      · exact hall w hmem
      · rw [hw]
        exact hpos
    | yield => exact ⟨htook, fun _ => halive (by simp)⟩
    | delete => exact ⟨htook, by simp⟩
    | exit => exact ⟨htook, by simp⟩

theorem sending_reachable (h : responder.Reachable r) : Sending r :=
  System.reachable_invariant (fun _ => sending_initial) (fun _ _ _ => sending_step) h

/-- Complete writes put `resp` on the stream again and again. -/
theorem flatten_chunks_of_full (h : ∀ w ∈ writes, w.accepted = resp.length) :
    (chunks writes).flatten = repeated writes.length := by
  induction writes with
  | nil => rfl
  | cons w writes ih =>
    obtain ⟨hw, hws⟩ := List.forall_mem_cons.mp h
    have hrest := ih hws
    simp only [chunks, List.map_cons, List.flatten_cons, hw, List.take_length] at hrest ⊢
    simp only [hrest, repeated, List.length_cons, List.replicate_succ, List.flatten_cons]

/-- One more write, complete or not, keeps the stream a prefix. -/
theorem prefix_of_full (h : ∀ w ∈ xs, w.accepted = resp.length) :
    (chunks (xs ++ [w])).flatten <+: repeated (xs.length + 1) := by
  have hxs := flatten_chunks_of_full h
  rw [repeated_succ]
  simp only [chunks, List.map_append, List.flatten_append, List.map_cons, List.map_nil,
    List.flatten_cons, List.flatten_nil, List.append_nil] at hxs ⊢
  rw [hxs]
  exact (List.prefix_append_right_inj _).mpr (List.take_prefix _ _)

/-- Before a write that takes bytes, every write was complete. -/
theorem Uncut.full_before (h : Uncut writes) (hpos : ∀ w ∈ writes.dropLast, 0 < w.accepted)
    (heq : writes = xs ++ y :: ys) (hy : 0 < y.accepted) :
    ∀ w ∈ xs, w.accepted = resp.length := by
  intro w hmem
  obtain ⟨as, bs, rfl⟩ := List.append_of_mem hmem
  cases bs with
  | nil => exact h as w y ys (by simpa using heq) hy
  | cons b bs =>
    refine h as w b (bs ++ y :: ys) (by simpa using heq) (hpos b ?_)
    have hdrop : writes.dropLast = as ++ w :: b :: (bs ++ (y :: ys).dropLast) := by
      rw [heq, List.dropLast_append_of_ne_nil (by simp)]
      simp
    simp [hdrop]

theorem framed_of_uncut (hpos : ∀ w ∈ writes.dropLast, 0 < w.accepted) (h : Uncut writes) :
    Framed (chunks writes) := by
  constructor
  · rcases List.eq_nil_or_concat' writes with rfl | ⟨xs, w, rfl⟩
    · exact ⟨0, by simp [chunks]⟩
    · by_cases hw : 0 < w.accepted
      · exact ⟨_, prefix_of_full (h.full_before hpos rfl hw)⟩
      · -- A failed write adds nothing to what the writes before it have sent.
        have hnone : (chunks (xs ++ [w])).flatten = (chunks xs).flatten := by
          simp [chunks, Nat.eq_zero_of_not_pos hw]
        rw [hnone]
        rcases List.eq_nil_or_concat' xs with rfl | ⟨xs, v, rfl⟩
        · exact ⟨0, by simp [chunks]⟩
        · have hv : 0 < v.accepted := hpos v (by simp)
          exact ⟨_, prefix_of_full (h.full_before hpos (List.append_assoc _ _ _) hv)⟩
  · intro cs c ds heq hc
    obtain ⟨xs, zs, rfl, rfl, hzs⟩ := List.map_eq_append_iff.mp heq
    obtain ⟨y, ys, rfl, rfl, -⟩ := List.map_eq_cons_iff.mp hzs
    have hy : 0 < y.accepted := by
      by_contra hzero
      simp [Nat.eq_zero_of_not_pos hzero] at hc
    exact ⟨_, flatten_chunks_of_full (h.full_before hpos rfl hy)⟩

theorem length_chunk (w : WriteResult resp.length) :
    (resp.take w.accepted).length = w.accepted := by
  have hle := w.accepted_le
  simp only [List.length_take]
  omega

theorem uncut_of_framed (hpos : ∀ w ∈ writes.dropLast, 0 < w.accepted)
    (h : Framed (chunks writes)) : Uncut writes := by
  intro xs w y ys heq hy
  have hne (v : WriteResult resp.length) (hv : 0 < v.accepted) : resp.take v.accepted ≠ [] := by
    rw [← List.length_pos_iff, length_chunk]
    exact hv
  have hw : 0 < w.accepted := by
    apply hpos w
    rw [heq, List.dropLast_append_of_ne_nil (by simp)]
    simp
  -- The stream is at a response boundary before `w` and again before `y`.
  obtain ⟨n, hn⟩ := h.2 (chunks xs) _ (chunks (y :: ys)) (by simp [heq, chunks]) (hne w hw)
  obtain ⟨m, hm⟩ := h.2 (chunks (xs ++ [w])) _ (chunks ys) (by simp [heq, chunks]) (hne y hy)
  have hlen := congrArg List.length hm
  have hle := w.accepted_le
  simp only [chunks, List.map_append, List.flatten_append, List.length_append, List.map_cons,
    List.map_nil, List.flatten_cons, List.flatten_nil, List.append_nil, length_chunk] at hn hlen
  rw [hn, repeated_length, repeated_length] at hlen
  have hdvd : resp.length ∣ w.accepted := by
    rw [← Nat.dvd_add_right (Dvd.intro_left n rfl), hlen]
    exact Dvd.intro_left m rfl
  exact Nat.le_antisymm hle (Nat.le_of_dvd hw hdvd)

/-- The stream is framed exactly when no write that took a part of the response was followed by
one that took bytes. -/
theorem framed_iff_uncut (h : responder.Reachable r) : Framed (chunks r.writes) ↔ Uncut r.writes :=
  have hs := sending_reachable h
  ⟨uncut_of_framed hs.took, framed_of_uncut hs.took⟩

/-- The socket is drained and takes `wn` bytes of the response. -/
def Answers.drained (wn : ℕ) (h : wn ≤ resp.length) : Answers :=
  ⟨.error EAGAIN, .count wn h, none⟩

theorem respond (pc : Pc) {wn : ℕ} (hpos : 0 < wn) (hle : wn ≤ resp.length)
    (hpc : acoResume pc = some .reading) :
    ∃ as, responder.Run ⟨pc, writes⟩ as ⟨.yielded, writes ++ [.count wn hle]⟩ := by
  let k : Answers := .drained wn hle
  have hread : Responder.Step ⟨.reading, writes⟩ (some k) ⟨.writing, writes⟩ :=
    .call (r := ⟨.reading, writes⟩) k trivial
  have hwrite : Responder.Step ⟨.writing, writes⟩ (some k)
      ⟨.yielding, writes ++ [.count wn hle]⟩ := by
    have hcall := Responder.Step.call (r := ⟨.writing, writes⟩) k trivial
    have hnext : clientRoutine .writing k = .yielding := if_neg (by omega)
    rwa [hnext] at hcall
  have hyield : Responder.Step ⟨.yielding, writes ++ [.count wn hle]⟩ (some k)
      ⟨.yielded, writes ++ [.count wn hle]⟩ :=
    .call (r := ⟨.yielding, writes ++ [.count wn hle]⟩) k trivial
  exact ⟨_, .stepL (.resume hpc) (.stepL hread (.stepL hwrite (.stepL hyield .refl)))⟩

/-- The first response is cut after 10 bytes, the second is sent whole. -/
theorem shortWrite_run :
    ∃ r : Responder, responder.Reachable r ∧ chunks r.writes = [resp.take 10, resp] := by
  obtain ⟨xs, hxs⟩ := respond .created (show 0 < 10 by decide) (by decide) rfl
  obtain ⟨ys, hys⟩ := respond .yielded (show 0 < 79 by decide) (by decide) rfl
  exact ⟨_, ⟨_, _, rfl, hxs.append hys⟩, rfl⟩

theorem framed_iff_uncut_shortWrite :
    ∃ r : Responder, responder.Reachable r ∧ chunks r.writes = [resp.take 10, resp] ∧
      (Framed (chunks r.writes) ↔ Uncut r.writes) := by
  obtain ⟨r, hr, hchunks⟩ := shortWrite_run
  exact ⟨r, hr, hchunks, framed_iff_uncut hr⟩

/-- After a short write the next resumption starts the response again. -/
theorem shortWrite_breaks_framing :
    ¬ ∀ r : Responder, responder.Reachable r → Framed (chunks r.writes) := by
  intro hall
  obtain ⟨r, hr, hchunks⟩ := shortWrite_run
  obtain ⟨⟨n, hn⟩, -⟩ := hall r hr
  rw [hchunks] at hn
  cases n with
  | zero =>
    have hlen := hn.length_le
    simp [repeated, show resp.length = 79 from rfl] at hlen
  | succ n =>
    have hone := hn.take 79
    have hresp : (repeated (n + 1)).take 79 = resp := List.take_left' rfl
    rw [hresp] at hone
    -- The stream and `resp` differ at the eleventh byte.
    revert hone
    decide

end UnixCodes.AcoHttpd
