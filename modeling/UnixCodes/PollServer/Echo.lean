import Mathlib.Algebra.Order.BigOperators.Group.List
import Mathlib.Algebra.Order.Ring.Nat
import Mathlib.Data.List.TakeWhile
import UnixCodes.PollServer.Model

/-! What a client of `poll-server.c` gets back for the bytes it sends. -/
namespace UnixCodes.PollServer

open Posix Transition

variable {sfd c : ℤ} {s t : Server} {a : Action} {bs beyond : List UInt8}

/-- The bytes of a read, and what follows `buf` in memory, are without the end of a string where it
would change the length. -/
structure Plain (bs beyond : List UInt8) : Prop where
  noNul : 0 ∉ bs
  stop : bs.length = 256 → beyond.head?.getD 0 = 0

theorem take_strlen (s : List UInt8) : s.take (strlen s) = s.takeWhile (· ≠ 0) :=
  (List.prefix_iff_eq_take.mp (List.takeWhile_prefix _)).symm

theorem zero_notMem_echo : 0 ∉ echo bs beyond := by
  intro h
  unfold echo at h
  rw [take_strlen] at h
  simpa using List.mem_takeWhile_imp h

/-- Bytes without a zero are sent back, and after a full buffer whatever `strlen` runs into. -/
theorem echo_eq_append (hle : bs.length ≤ 256) (h : 0 ∉ bs) :
    echo bs beyond = bs ++ if bs.length = 256 then beyond.takeWhile (· ≠ 0) else [] := by
  have hall : ∀ b ∈ bs, decide (b ≠ 0) = true := by
    intro b hb
    simp only [decide_eq_true_eq]
    rintro rfl
    exact h hb
  unfold echo
  rw [take_strlen, List.append_assoc, List.takeWhile_append_of_pos hall]
  congr 1
  split
  · rename_i hfull
    simp [hfull]
  · obtain ⟨k, hk⟩ : ∃ k, 256 - bs.length = k + 1 := ⟨255 - bs.length, by omega⟩
    simp [hk, List.replicate_succ]

theorem takeWhile_eq_nil_iff_head : beyond.takeWhile (· ≠ 0) = [] ↔ beyond.head?.getD 0 = 0 := by
  cases beyond with
  | nil => simp
  | cons b bs => simp [List.takeWhile_cons]

theorem plain_iff (hle : bs.length ≤ 256) :
    Plain bs beyond ↔ 0 ∉ bs ∧ (echo bs beyond).length ≤ bs.length := by
  constructor
  · rintro ⟨hnul, hstop⟩
    refine ⟨hnul, ?_⟩
    rw [echo_eq_append hle hnul, List.length_append]
    split
    · rename_i hfull
      rw [takeWhile_eq_nil_iff_head.mpr (hstop hfull), List.length_nil]
      omega
    · simp
  · rintro ⟨hnul, hlen⟩
    refine ⟨hnul, fun hfull => takeWhile_eq_nil_iff_head.mp ?_⟩
    rw [echo_eq_append hle hnul, List.length_append, if_pos hfull] at hlen
    exact List.eq_nil_of_length_eq_zero (by omega)

theorem echo_of_plain (hle : bs.length ≤ 256) (h : Plain bs beyond) : echo bs beyond = bs := by
  obtain ⟨hnul, hlen⟩ := (plain_iff hle).mp h
  obtain ⟨e, he⟩ : ∃ e, echo bs beyond = bs ++ e := ⟨_, echo_eq_append hle hnul⟩
  rw [he, List.length_append] at hlen
  have hnil : e = [] := List.eq_nil_of_length_eq_zero (by omega)
  rw [he, hnil, List.append_nil]

/-- Outputs that are never shorter than their inputs are as long as these only if each of them
is. -/
theorem length_le_of_flatMap {α β γ : Type*} {xs : List α} {f : α → List β} {g : α → List γ}
    (hle : ∀ x ∈ xs, (f x).length ≤ (g x).length)
    (h : (xs.flatMap g).length ≤ (xs.flatMap f).length) :
    ∀ x ∈ xs, (g x).length ≤ (f x).length := by
  intro x hx
  by_contra hshorter
  have hlt := List.sum_lt_sum _ _ hle ⟨x, hx, by omega⟩
  rw [List.length_flatMap, List.length_flatMap] at h
  omega

/-- A stream comes back as it is only if every read of it does: no zero is ever sent, so the
outputs are at least as long as the reads. -/
theorem flatMap_echo_iff {chunks : List (List UInt8 × List UInt8)}
    (hle : ∀ x ∈ chunks, x.1.length ≤ 256) :
    chunks.flatMap (fun x => echo x.1 x.2) = chunks.flatMap Prod.fst ↔
      ∀ x ∈ chunks, Plain x.1 x.2 := by
  constructor
  · intro h
    have hnul : ∀ x ∈ chunks, 0 ∉ x.1 := by
      intro x hx hzero
      have hmem : 0 ∈ chunks.flatMap Prod.fst := List.mem_flatMap.mpr ⟨x, hx, hzero⟩
      rw [← h] at hmem
      obtain ⟨y, -, hy⟩ := List.mem_flatMap.mp hmem
      exact zero_notMem_echo hy
    have hlonger : ∀ x ∈ chunks, x.1.length ≤ (echo x.1 x.2).length := by
      intro x hx
      rw [echo_eq_append (hle x hx) (hnul x hx), List.length_append]
      omega
    have hlen := length_le_of_flatMap hlonger (by rw [h])
    intro x hx
    exact (plain_iff (hle x hx)).mpr ⟨hnul x hx, hlen x hx⟩
  · intro h
    induction chunks with
    | nil => rfl
    | cons x xs ih =>
      rw [List.forall_mem_cons] at hle h
      rw [List.flatMap_cons, List.flatMap_cons, echo_of_plain hle.1 h.1, ih hle.2 h.2]

/-- The server with the number of writes before each connection was accepted, and what has been
read from it since: the bytes, and those beyond `buf` at that time. -/
structure Echoes where
  server : Server
  opened : ℤ → ℕ
  reads : ℤ → List (List UInt8 × List UInt8)

namespace Echoes

/-- The records after an action that leads to `t`. -/
def after (w : Echoes) (a : Action) (t : Server) : Echoes where
  server := t
  opened := match a with
    | .accept (.ok cfd) => Function.update w.opened cfd w.server.sent.length
    | _ => w.opened
  reads := match a, w.server.loop with
    | .accept (.ok cfd), _ => Function.update w.reads cfd []
    | .read (.bytes (b :: bs) _) beyond, .service i =>
      let tfd := (w.server.clientPoll i).fd
      Function.update w.reads tfd (w.reads tfd ++ [(b :: bs, beyond)])
    | _, _ => w.reads

/-- What has been read from a connection. -/
def received (w : Echoes) (c : ℤ) : List UInt8 := (w.reads c).flatMap Prod.fst

/-- What has been written to a connection. -/
def written (w : Echoes) (c : ℤ) : List UInt8 :=
  ((w.server.sent.drop (w.opened c)).filter (·.1 = c)).flatMap Prod.snd

/-- The writes to a connection are the echoes of its reads. -/
structure Answers (w : Echoes) (c : ℤ) : Prop where
  opened : w.opened c ≤ w.server.sent.length
  written : w.written c = (w.reads c).flatMap fun x => echo x.1 x.2
  size : ∀ x ∈ w.reads c, x.1.length ≤ 256

end Echoes

def echoes (sfd : ℤ) : System Echoes Action where
  Initial w := w.server.Initial sfd ∧ w.opened = (fun _ => 0) ∧ w.reads = fun _ => []
  Step w a w' := Server.Step sfd w.server a w'.server ∧ w' = w.after a w'.server

open Echoes

variable {w w' : Echoes}

theorem answers_congr (h : Answers w c) (hsent : w'.server.sent = w.server.sent)
    (hopened : w'.opened c = w.opened c) (hreads : w'.reads c = w.reads c) : Answers w' c := by
  refine ⟨?_, ?_, ?_⟩
  · rw [hopened, hsent]
    exact h.opened
  · rw [Echoes.written, hopened, hsent, hreads]
    exact h.written
  · rw [hreads]
    exact h.size

/-- A connection starts with nothing read and nothing written. -/
theorem answers_accept {cfd : ℤ} (hsent : t.sent = w.server.sent) (h : Answers w c) :
    Answers (w.after (.accept (.ok cfd)) t) c := by
  by_cases he : c = cfd
  · subst he
    refine ⟨?_, ?_, ?_⟩
    · simp [after, hsent]
    · simp [after, Echoes.written, hsent]
    · simp [after]
  · refine answers_congr h hsent ?_ ?_
    · simp only [after, Function.update_of_ne he]
    · simp only [after, Function.update_of_ne he]

theorem answers_read {i : ℕ} {b : UInt8} {hle : (b :: bs).length ≤ 256}
    (hl : w.server.loop = .service i)
    (hsent : t.sent = w.server.sent ++ [((w.server.clientPoll i).fd, echo (b :: bs) beyond)])
    (h : Answers w c) : Answers (w.after (.read (.bytes (b :: bs) hle) beyond) t) c := by
  have hdrop : t.sent.drop (w.opened c) = w.server.sent.drop (w.opened c) ++
      [((w.server.clientPoll i).fd, echo (b :: bs) beyond)] := by
    rw [hsent, List.drop_append_of_le_length h.opened]
  have hopened : w.opened c ≤ t.sent.length := by
    rw [hsent, List.length_append]
    have := h.opened
    omega
  have hwritten := h.written
  unfold Echoes.written at hwritten
  refine ⟨hopened, ?_, ?_⟩
  · simp only [after, hl, Echoes.written, hdrop, List.filter_append, List.flatMap_append, hwritten]
    by_cases he : c = (w.server.clientPoll i).fd
    · subst he
      simp
    · have hne : (w.server.clientPoll i).fd ≠ c := fun hc => he hc.symm
      simp [hne, Function.update_of_ne he]
  · simp only [after, hl]
    by_cases he : c = (w.server.clientPoll i).fd
    · subst he
      rw [Function.update_self, List.forall_mem_append, List.forall_mem_singleton]
      exact ⟨h.size, hle⟩
    · rw [Function.update_of_ne he]
      exact h.size

theorem sent_accepted {cfd : ℤ} : ((s.opened cfd).accepted cfd).sent = s.sent := by
  unfold Server.accepted
  split <;> rfl

theorem answers_step (hs : Server.Step sfd w.server a t) (h : Answers w c) :
    Answers (w.after a t) c := by
  cases hs with
  | pollError hl e revents => exact answers_congr h rfl rfl rfl
  | poll hl n revents => exact answers_congr h rfl rfl rfl
  | quiet hl hq => exact answers_congr h rfl rfl rfl
  | acceptError hl hr e => exact answers_congr h rfl rfl rfl
  | accept hl hr cfd hcfd hlisten hfresh => exact answers_accept sent_accepted h
  | skip hl hi hskip => exact answers_congr h rfl rfl rfl
  | read hl hi hfd hread r beyond =>
    rcases r with e | ⟨_ | ⟨b, bs⟩, hle⟩
    · exact answers_congr h rfl rfl rfl
    · exact answers_congr h rfl rfl rfl
    · exact answers_read hl rfl h
  | done hl hi => exact answers_congr h rfl rfl rfl

theorem answers_reachable (h : (echoes sfd).Reachable w) (c : ℤ) : Answers w c := by
  apply System.reachable_invariant ?_ ?_ h
  · rintro w ⟨hi, hopened, hreads⟩
    refine ⟨?_, ?_, ?_⟩
    · simp [hopened]
    · simp [Echoes.written, hi.sent, hreads]
    · simp [hreads]
  · rintro w a w' ⟨hs, he⟩ hw
    rw [he]
    exact answers_step hs hw

/-- A client gets back what it has sent as long as its bytes have no zero among them and a read
that fills `buf` finds a zero behind it; one read without this spoils the stream for good. -/
theorem written_eq_received_iff (h : (echoes sfd).Reachable w) (c : ℤ) :
    w.written c = w.received c ↔
      ∀ x ∈ w.reads c, 0 ∉ x.1 ∧ (x.1.length = 256 → x.2.head?.getD 0 = 0) := by
  have hw := answers_reachable h c
  rw [hw.written, Echoes.received, flatMap_echo_iff hw.size]
  refine forall₂_congr fun x _ => ?_
  exact ⟨fun hx => ⟨hx.noNul, hx.stop⟩, fun hx => ⟨hx.1, hx.2⟩⟩

theorem log {t : Server} (hs : Server.Step sfd w.server a t) :
    (echoes sfd).Step w a (w.after a t) := ⟨hs, rfl⟩

def Echoes.start (sfd : ℤ) (events revents : ℕ → BitVec 16) : Echoes :=
  ⟨.start sfd events revents, fun _ => 0, fun _ => []⟩

/-- A client comes, sends its first bytes and has them echoed. -/
theorem echoed_reachable (bs : List UInt8) (hle : bs.length ≤ 255) (b : UInt8) :
    ∃ w : Echoes, (echoes 3).Reachable w ∧ w.reads 5 = [(b :: bs, [])] ∧
      w.written 5 = echo (b :: bs) [] := by
  refine ⟨_, ⟨.start 3 (fun _ => 0) (fun _ => 0), _,
    ⟨start_initial 3 (fun _ => 0) (fun _ => 0), rfl, rfl⟩,
    .stepL (log (.poll rfl 1 fun i => if i = 0 then POLLIN else 0)) <|
    .stepL (log (.accept rfl (by decide) 5 (by decide) (by decide) (by decide))) <|
    .stepL (log (.skip rfl (by decide) (by decide))) <|
    .stepL (log (.done rfl (by decide))) <|
    .stepL (log (.poll rfl 1 fun i => if i = 1 then POLLIN else 0)) <|
    .stepL (log (.quiet rfl (by decide))) <|
    .stepL (log (.read rfl (by decide) (by decide) (by decide)
      (.bytes (b :: bs) (Nat.succ_le_succ hle)) [])) .refl⟩, rfl, ?_⟩
  exact List.append_nil _

theorem written_eq_received_iff_line :
    ∃ w : Echoes, (echoes 3).Reachable w ∧ w.received 5 = [72, 105, 10] ∧
      (w.written 5 = w.received 5 ↔
        ∀ x ∈ w.reads 5, 0 ∉ x.1 ∧ (x.1.length = 256 → x.2.head?.getD 0 = 0)) := by
  obtain ⟨w, hw, hreads, -⟩ := echoed_reachable [105, 10] (by decide) 72
  exact ⟨w, hw, by rw [Echoes.received, hreads]; rfl, written_eq_received_iff hw 5⟩

/-- Of the bytes 72, 0, 105 only the first one comes back. -/
theorem nul_cuts_echo :
    ¬ ∀ w : Echoes, (echoes 3).Reachable w → ∀ c, w.written c = w.received c := by
  intro hall
  obtain ⟨w, hw, hreads, hwritten⟩ := echoed_reachable [0, 105] (by decide) 72
  have heq := hall w hw 5
  have hfirst : echo [72, 0, 105] [] = [72] := by decide
  rw [hwritten, hfirst, Echoes.received, hreads] at heq
  cases heq

end UnixCodes.PollServer
