import UnixCodes.Lib.Memory
import UnixCodes.Lib.Transition
import UnixCodes.Posix

/-! The loop of `client.cpp`, which prints what the server sends. -/
namespace UnixCodes.KqueueServer.Client

open Posix Transition

/-- What must not happen to `recvline`: a write outside it, and a string in it without an end. -/
inductive Fault
  | outside
  | unterminated
  deriving DecidableEq

/-- At the `read` in the head of the loop, at `fputs` in its body, or behind it. -/
inductive Loop
  | read
  | fputs
  | left
  deriving DecidableEq

/-- `received` is what each `read` has stored, and `printed` are the strings given to `fputs`. -/
structure State where
  recvline : List UInt8
  received : List (List UInt8)
  printed : List (List UInt8)
  loop : Loop

/-- `Hello, Server!`, which the program sends first. -/
def hello : List UInt8 :=
  [72, 101, 108, 108, 111, 44, 32, 83, 101, 114, 118, 101, 114, 33]

/-- `recvline[i] = 0`. -/
def terminate (recvline : List UInt8) (i : ℕ) : Except Fault (List UInt8) :=
  if i < recvline.length then .ok (recvline.set i 0) else .error .outside

namespace State

/-- The greeting is in `recvline`, over what the stack has left there. -/
def start (recvline : List UInt8) : State where
  recvline := overwrite recvline 0 (hello ++ [0])
  received := []
  printed := []
  loop := .read

/-- `read` has stored `bs`. -/
def receive (s : State) (bs : List UInt8) : Except Fault State :=
  if bs.length ≤ s.recvline.length then do
    let recvline := overwrite s.recvline 0 bs
    let recvline ← terminate recvline (if bs.length < 256 then bs.length else 255)
    return { s with recvline := recvline, received := s.received ++ [bs], loop := .fputs }
  else .error .outside

/-- `fputs` is given the string in `recvline`. -/
def print (s : State) (ok : Bool) : Except Fault State :=
  match cString s.recvline with
  | some line =>
    .ok { s with printed := s.printed ++ [line], loop := if ok then .read else .left }
  | none => .error .unterminated

end State

inductive Action
  | read (r : ReadResult 256)
  | fputs (ok : Bool)

/-- The server sends no NUL. -/
def Action.NulFree : Action → Prop
  | .read (.bytes bs _) => 0 ∉ bs
  | _ => True

inductive Step : State → Action → Except Fault State → Prop
  | read {s : State} {bs : List UInt8} (hl : s.loop = .read) (hle : bs.length ≤ 256)
      (hne : bs ≠ []) : Step s (.read (.bytes bs hle)) (s.receive bs)
  | readEnd {s : State} (hl : s.loop = .read) (hle : [].length ≤ 256) :
      Step s (.read (.bytes [] hle)) (.ok { s with loop := .left })
  | readError {s : State} (hl : s.loop = .read) (e : Errno) :
      Step s (.read (.error e)) (.ok { s with loop := .left })
  | fputs {s : State} (hl : s.loop = .fputs) (ok : Bool) : Step s (.fputs ok) (s.print ok)

/-- The array has 257 bytes. -/
def client : System State Action where
  Initial s := ∃ recvline, recvline.length = 257 ∧ s = .start recvline
  Step s a s' := Step s a (.ok s')

variable {s t : State} {a : Action} {bs recvline : List UInt8}

/-- The terminator of a full `read` takes the place of its last byte. -/
def shown (bs : List UInt8) : List UInt8 := bs.take 255

/-- What has been printed, and what is in `recvline` before it is printed. -/
structure Echoed (s : State) : Prop where
  length : s.recvline.length = 257
  sizes : ∀ bs ∈ s.received, bs.length ≤ 256
  printed : s.loop ≠ .fputs → s.printed = s.received.map shown
  pending : s.loop = .fputs → ∃ before bs, s.received = before ++ [bs] ∧
    s.printed = before.map shown ∧ cString s.recvline = some (shown bs)

/-- The terminator is written inside the array, and it ends the bytes that are shown. -/
theorem receive_spec (hlength : s.recvline.length = 257) (hle : bs.length ≤ 256) (hnul : 0 ∉ bs) :
    ∃ recvline, s.receive bs = .ok
        { s with recvline := recvline, received := s.received ++ [bs], loop := .fputs } ∧
      recvline.length = 257 ∧ cString recvline = some (shown bs) := by
  let i := if bs.length < 256 then bs.length else 255
  let line := overwrite s.recvline 0 bs
  have hi : i ≤ 255 ∧ i ≤ bs.length ∧ (i = bs.length ∨ i = 255) := by
    simp only [i]
    split <;> omega
  have hline : line.length = 257 := (length_overwrite (by omega)).trans hlength
  have htake : line.take i = shown bs := by
    have hbs : line.take i = bs.take i := by
      rw [show line = bs ++ s.recvline.drop (0 + bs.length) from rfl,
        List.take_append_of_le_length hi.2.1]
    rw [hbs, shown]
    rcases hi.2.2 with hlast | hfull
    · rw [hlast, List.take_length, List.take_of_length_le (by omega)]
    · rw [hfull]
  have hshown : 0 ∉ shown bs := fun hmem => hnul (List.mem_of_mem_take hmem)
  have hset : line.set i 0 = shown bs ++ 0 :: line.drop (i + 1) := by
    rw [List.set_eq_take_append_cons_drop, if_pos (by omega), htake]
  refine ⟨line.set i 0, ?_, ?_, ?_⟩
  · rw [State.receive, if_pos (by omega)]
    have hterminate : terminate line i = .ok (line.set i 0) := if_pos (by omega)
    simp only [i, line] at hterminate ⊢
    rw [hterminate]
    rfl
  · rw [List.length_set, hline]
  · rw [hset, cString_append hshown]

theorem echoed_step {r : Except Fault State} (hs : Step s a r) (hnul : a.NulFree)
    (h : Echoed s) : ∃ t, r = .ok t ∧ Echoed t := by
  cases hs with
  | @read bs hl hle hne =>
    obtain ⟨recvline, hreceive, hlength, hstring⟩ := receive_spec h.length hle hnul
    refine ⟨_, hreceive, hlength, ?_, fun hno => absurd rfl hno, fun _ => ?_⟩
    · rw [List.forall_mem_append, List.forall_mem_singleton]
      exact ⟨h.sizes, hle⟩
    · exact ⟨s.received, bs, rfl, h.printed (by simp [hl]), hstring⟩
  | readEnd hl | readError hl =>
    have hprinted := h.printed (by simp [hl])
    exact ⟨_, rfl, h.length, h.sizes, fun _ => hprinted, fun hno => Loop.noConfusion hno⟩
  | fputs hl ok =>
    obtain ⟨before, bs, hreceived, hprinted, hstring⟩ := h.pending hl
    have hprint : s.print ok = .ok { s with
        printed := s.printed ++ [shown bs], loop := if ok then .read else .left } := by
      simp only [State.print, hstring]
    refine ⟨_, hprint, h.length, h.sizes, fun _ => ?_, fun hno => ?_⟩
    · rw [hreceived, hprinted, List.map_append, List.map_singleton]
    · cases ok <;> cases hno

theorem echoed_reachable (h : (client.restrict fun _ a => a.NulFree).Reachable s) : Echoed s := by
  apply System.reachable_invariant ?_ ?_ h
  · rintro s ⟨recvline, hlength, rfl⟩
    refine ⟨?_, by simp [State.start], fun _ => rfl, fun hno => Loop.noConfusion hno⟩
    have hfits : 0 + (hello ++ [0]).length ≤ recvline.length := by
      rw [hlength]
      decide
    exact (length_overwrite hfits).trans hlength
  · rintro s a t ⟨hnul, hs⟩ hechoed
    obtain ⟨t', ht, hechoed'⟩ := echoed_step hs hnul hechoed
    cases ht
    exact hechoed'

/-- All bytes are shown if and only if no chunk is longer than what is shown of it. -/
theorem shown_flatten (chunks : List (List UInt8)) :
    (chunks.map shown).flatten = chunks.flatten ↔ ∀ bs ∈ chunks, bs.length ≤ 255 := by
  constructor
  · intro heq
    have hle (cs : List (List UInt8)) :
        (cs.map shown).flatten.length ≤ cs.flatten.length := by
      induction cs with
      | nil => exact le_rfl
      | cons c cs ih =>
        simp only [List.map_cons, List.flatten_cons, List.length_append, shown, List.length_take]
        omega
    have hlength := congrArg List.length heq
    clear heq
    induction chunks with
    | nil => simp
    | cons c cs ih =>
      have hrest := hle cs
      simp only [List.map_cons, List.flatten_cons, List.length_append] at hlength
      have hc : (shown c).length = min 255 c.length := List.length_take
      rw [List.forall_mem_cons]
      exact ⟨by omega, ih (by omega)⟩
  · intro hall
    have hmap : chunks.map shown = chunks.map id :=
      List.map_congr_left fun bs hbs => List.take_of_length_le (hall bs hbs)
    rw [hmap, List.map_id]

/-- Nothing is written outside `recvline`; and what has been printed behind the body of the loop is
all that has been received if and only if no `read` has returned 256 bytes. -/
theorem prints_received_iff (h : (client.restrict fun _ a => a.NulFree).Reachable s) :
    (∀ a f, a.NulFree → ¬ Step s a (.error f)) ∧
    (s.loop ≠ .fputs → (s.printed.flatten = s.received.flatten ↔
      ∀ bs ∈ s.received, bs.length ≠ 256)) := by
  have hechoed := echoed_reachable h
  constructor
  · intro a f hnul hs
    obtain ⟨t, ht, -⟩ := echoed_step hs hnul hechoed
    cases ht
  · intro hl
    rw [hechoed.printed hl, shown_flatten]
    apply forall₂_congr
    intro bs hbs
    have hsize := hechoed.sizes bs hbs
    omega

/-- A run of the client over these chunks. -/
theorem exists_run (chunks : List (List UInt8))
    (hchunks : ∀ bs ∈ chunks, bs ≠ [] ∧ bs.length ≤ 256 ∧ 0 ∉ bs) :
    ∃ s, (client.restrict fun _ a => a.NulFree).Reachable s ∧ s.loop = .read ∧
      s.received = chunks := by
  induction chunks using List.reverseRecOn with
  | nil =>
    have hinit : client.Initial (.start (List.replicate 257 0)) :=
      ⟨_, List.length_replicate, rfl⟩
    exact ⟨_, ⟨_, [], hinit, .refl⟩, rfl, rfl⟩
  | append_singleton before bs ih =>
    rw [List.forall_mem_append, List.forall_mem_singleton] at hchunks
    obtain ⟨hbefore, hne, hle, hnul⟩ := hchunks
    obtain ⟨s, hs, hl, hreceived⟩ := ih hbefore
    have hechoed := echoed_reachable hs
    obtain ⟨recvline, hreceive, hlength, hstring⟩ := receive_spec hechoed.length hle hnul
    let t : State :=
      { s with recvline := recvline, received := s.received ++ [bs], loop := .fputs }
    have hread : Step s (.read (.bytes bs hle)) (.ok t) := hreceive ▸ .read hl hle hne
    have ht : (client.restrict fun _ a => a.NulFree).Reachable t :=
      hs.step (a := .read (.bytes bs hle)) ⟨hnul, hread⟩
    have hprint : t.print true = .ok { t with
        printed := t.printed ++ [shown bs], loop := .read } := by
      simp only [State.print, t, hstring]
      rfl
    have hfputs := Step.fputs (s := t) rfl true
    rw [hprint] at hfputs
    exact ⟨_, ht.step (a := .fputs true) ⟨trivial, hfputs⟩, rfl, by rw [← hreceived]⟩

/-- Two chunks of two bytes. -/
theorem prints_received_iff_pairs : ∃ s : State,
    (client.restrict fun _ a => a.NulFree).Reachable s ∧ s.loop = .read ∧
    s.received = [[97, 98], [99, 100]] ∧ s.printed.flatten = s.received.flatten := by
  obtain ⟨s, hs, hl, hreceived⟩ := exists_run [[97, 98], [99, 100]] (by simp)
  refine ⟨s, hs, hl, hreceived, ((prints_received_iff hs).2 (by simp [hl])).mpr ?_⟩
  rw [hreceived]
  simp

/-- Of 256 bytes that arrive in one `read` the last one is not printed. -/
theorem full_read_cut :
    ¬ ∀ s, (client.restrict fun _ a => a.NulFree).Reachable s → s.loop = .read →
      s.printed.flatten = s.received.flatten := by
  intro hall
  have hchunk : ∀ bs ∈ [List.replicate 256 (97 : UInt8)],
      bs ≠ [] ∧ bs.length ≤ 256 ∧ 0 ∉ bs := by
    intro bs hbs
    obtain rfl := List.mem_singleton.mp hbs
    refine ⟨List.replicate_succ_ne_nil, List.length_replicate.le, fun hmem => ?_⟩
    cases List.eq_of_mem_replicate hmem
  obtain ⟨s, hs, hl, hreceived⟩ := exists_run _ hchunk
  have hprinted := (echoed_reachable hs).printed (by simp [hl])
  have heq := hall s hs hl
  rw [hprinted, hreceived, shown_flatten] at heq
  have hle := heq _ List.mem_cons_self
  rw [List.length_replicate] at hle
  omega

end UnixCodes.KqueueServer.Client
