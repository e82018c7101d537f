import UnixCodes.TcpClient.Model

/-! What a line's `write` tells the server about the lines before it. -/
namespace UnixCodes.TcpClient

open Posix Transition

variable {test test' : Bool} {s s' t : State} {a : Action} {lines : List Line} {line : Line}
  {k p : ℕ} {w w' : List UInt8}

/-- `sendline` after these lines. -/
def stored (lines : List Line) : List UInt8 :=
  lines.foldl (fun mem line => overwrite mem 0 (line.bytes ++ [0])) (List.replicate 256 0)

/-- The byte that the last line reaching place `p` has there; a line has 0 at its end, and 0 is
there before any line. -/
def leftover (lines : List Line) (p : ℕ) : UInt8 :=
  match lines.reverse.find? (p ≤ ·.bytes.length) with
  | some line => line.bytes.getD p 0
  | none => 0

theorem stored_concat : stored (lines ++ [line]) =
    overwrite (stored lines) 0 (line.bytes ++ [0]) := by
  rw [stored, List.foldl_append]
  rfl

theorem leftover_concat : leftover (lines ++ [line]) p =
    if p ≤ line.bytes.length then line.bytes.getD p 0 else leftover lines p := by
  unfold leftover
  rw [List.reverse_append, List.reverse_singleton, List.singleton_append, List.find?_cons]
  by_cases hp : p ≤ line.bytes.length <;> simp [hp]

theorem length_stored : (stored lines).length = 256 := by
  induction lines using List.reverseRecOn with
  | nil => exact List.length_replicate
  | append_singleton lines line ih =>
    have hle := line.le
    rw [stored_concat, length_overwrite, ih]
    rw [ih, List.length_append, List.length_singleton]
    omega

/-- Each place of `sendline` holds what the lines have left there. -/
theorem getElem?_stored (hp : p < 256) : (stored lines)[p]? = some (leftover lines p) := by
  induction lines using List.reverseRecOn with
  | nil => exact List.getElem?_replicate_of_lt hp
  | append_singleton lines line ih =>
    rw [stored_concat, leftover_concat, getElem?_overwrite (Nat.zero_le _)]
    rw [List.length_append, List.length_singleton]
    by_cases hle : p ≤ line.bytes.length
    · rw [if_pos (by omega), if_pos hle, Nat.sub_zero]
      rcases Nat.lt_or_eq_of_le hle with hlt | heq
      · rw [List.getElem?_append_left hlt, List.getD_eq_getElem?_getD,
          List.getElem?_eq_getElem hlt, Option.getD_some]
      · rw [heq, List.getElem?_concat_length, List.getD_eq_getElem?_getD,
          List.getElem?_eq_none le_rfl, Option.getD_none]
    · rw [if_neg (by omega), if_neg hle]
      exact ih

/-- The same line leaves the same bytes in `sendline` if and only if the lines before have left the
same bytes behind its end. -/
theorem stored_concat_eq_iff {lines' : List Line} :
    stored (lines ++ [line]) = stored (lines' ++ [line]) ↔
      ∀ p, line.bytes.length < p → p < 256 → leftover lines p = leftover lines' p := by
  constructor
  · intro heq p hlow hhigh
    have hp : (stored (lines ++ [line]))[p]? = some _ := getElem?_stored hhigh
    rw [heq, getElem?_stored hhigh, leftover_concat, leftover_concat, if_neg (by omega),
      if_neg (by omega)] at hp
    exact (Option.some.inj hp).symm
  · intro hall
    apply List.ext_getElem?
    intro p
    by_cases hp : p < 256
    · rw [getElem?_stored hp, getElem?_stored hp, leftover_concat, leftover_concat]
      split
      · rfl
      · rw [hall p (by omega) hp]
    · rw [List.getElem?_eq_none (by rw [length_stored]; omega),
        List.getElem?_eq_none (by rw [length_stored]; omega)]

/-- Lines that end before a place leave the zero there that the program began with. -/
theorem leftover_of_short (h : ∀ line ∈ lines, line.bytes.length < p) : leftover lines p = 0 := by
  have hnone : lines.reverse.find? (p ≤ ·.bytes.length) = none := by
    rw [List.find?_eq_none]
    intro line hline
    have hlt := h line (List.mem_reverse.mp hline)
    simpa using hlt
  rw [leftover, hnone]

/-- `sendline` is what the lines have made of it, and so is what has been written for each. -/
structure Sent (s : State) : Prop where
  sendline : s.sendline = stored s.lines
  written : ∀ k w, s.written[k]? = some w → w = stored (s.lines.take (k + 1))
  length : s.lines.length = s.written.length + if s.loop = .write then 1 else 0

/-- Steps that neither take a line nor send one. -/
theorem sent_congr (h : Sent s) (hsendline : t.sendline = s.sendline) (hlines : t.lines = s.lines)
    (hwritten : t.written = s.written) (hs : s.loop ≠ .write) (ht : t.loop ≠ .write) : Sent t := by
  have hlength := h.length
  rw [if_neg hs] at hlength
  refine ⟨?_, ?_, ?_⟩
  · rw [hsendline, hlines]
    exact h.sendline
  · rw [hwritten, hlines]
    exact h.written
  · rw [hlines, hwritten, if_neg ht]
    exact hlength

theorem sent_store (h : Sent s) (hl : s.loop ≠ .write) : Sent (s.store line) := by
  have hlength := h.length
  rw [if_neg hl, Nat.add_zero] at hlength
  refine ⟨?_, ?_, ?_⟩
  · change overwrite s.sendline 0 (line.bytes ++ [0]) = stored (s.lines ++ [line])
    rw [stored_concat, h.sendline]
  · intro k w hw
    have hk : k < s.written.length := (List.getElem?_eq_some_iff.mp hw).1
    change w = stored ((s.lines ++ [line]).take (k + 1))
    rw [List.take_append_of_le_length (by omega)]
    exact h.written k w hw
  · change (s.lines ++ [line]).length = s.written.length + 1
    rw [List.length_append, List.length_singleton, hlength]

theorem sent_send (h : Sent s) (hl : s.loop = .write) :
    Sent { s.send 256 with loop := .select } := by
  have hlength := h.length
  rw [if_pos hl] at hlength
  have hall : s.sendline.take 256 = stored s.lines := by
    rw [h.sendline]
    exact List.take_of_length_le length_stored.le
  refine ⟨h.sendline, ?_, ?_⟩
  · intro k w hw
    change (s.written ++ [s.sendline.take 256])[k]? = some w at hw
    change w = stored (s.lines.take (k + 1))
    rcases Nat.lt_or_ge k s.written.length with hk | hk
    · rw [List.getElem?_append_left hk] at hw
      exact h.written k w hw
    · rw [List.getElem?_append_right hk, hall, List.getElem?_singleton] at hw
      split at hw
      · cases hw
        rw [List.take_of_length_le (by omega)]
      · cases hw
  · change s.lines.length = (s.written ++ [s.sendline.take 256]).length + 0
    rw [List.length_append, List.length_singleton, hlength]

theorem sent_step (hs : Step test s a t) (hfull : a.Full) (h : Sent s) : Sent t := by
  cases hs with
  | selectInterrupted => exact h
  | selectError hl => exact sent_congr h rfl rfl rfl (by simp [hl]) (by simp)
  | select hl fd stdin =>
    refine sent_congr h rfl rfl rfl (by simp [hl]) ?_
    cases fd <;> cases stdin <;> simp
  | readError hl | readEnd hl => exact sent_congr h rfl rfl rfl (by simp [hl]) (by simp)
  | @read stdin bs hl =>
    refine sent_congr h rfl rfl rfl (by simp [hl]) ?_
    by_cases hends : s.Ends test bs <;> cases stdin <;> simp [hends]
  | fgets hl line => exact sent_store h (by simp [hl])
  | fgetsEnd hl => exact sent_congr h rfl rfl rfl (by simp [hl]) (by simp)
  | @write k hl hle =>
    have hk : k = 256 := hfull
    clear hfull
    subst hk
    exact sent_send h hl
  | writeNone => cases hfull
  | writeError => cases hfull

theorem sent_reachable (h : ((tcpClient test).restrict fun _ a => a.Full).Reachable s) :
    Sent s := by
  apply System.reachable_invariant ?_ ?_ h
  · rintro s rfl
    refine ⟨rfl, ?_, rfl⟩
    intro k w hw
    cases hw
  · rintro s a t ⟨hfull, hs⟩ hsent
    exact sent_step hs hfull hsent

theorem Sent.written_eq (h : Sent s) (hline : s.lines[k]? = some line)
    (hw : s.written[k]? = some w) : w = stored (s.lines.take k ++ [line]) := by
  rw [h.written k w hw, List.take_add_one, hline]
  rfl

/-- In two runs with the same `k`-th line the same bytes are written for it if and only if the
lines before it have left the same bytes behind its end. -/
theorem written_eq_iff (h : ((tcpClient test).restrict fun _ a => a.Full).Reachable s)
    (h' : ((tcpClient test').restrict fun _ a => a.Full).Reachable s')
    (hline : s.lines[k]? = some line) (hline' : s'.lines[k]? = some line)
    (hw : s.written[k]? = some w) (hw' : s'.written[k]? = some w') :
    w = w' ↔ ∀ p, line.bytes.length < p → p < 256 →
      leftover (s.lines.take k) p = leftover (s'.lines.take k) p := by
  rw [(sent_reachable h).written_eq hline hw, (sent_reachable h').written_eq hline' hw']
  exact stored_concat_eq_iff

/-- A run that sends these lines. -/
theorem exists_run (test : Bool) (lines : List Line) :
    ∃ s, ((tcpClient test).restrict fun _ a => a.Full).Reachable s ∧ s.loop = .select ∧
      s.stdineof = false ∧ s.lines = lines := by
  induction lines using List.reverseRecOn with
  | nil => exact ⟨.start, ⟨.start, [], rfl, .refl⟩, rfl, rfl, rfl⟩
  | append_singleton lines line ih =>
    obtain ⟨s, hs, hl, hopen, rfl⟩ := ih
    have hselect := hs.step (a := Action.select (.ok (false, true)))
      ⟨trivial, .select hl false true fun _ => hopen⟩
    have hfgets := hselect.step (a := Action.fgets (some line)) ⟨trivial, .fgets rfl line⟩
    have hwrite := hfgets.step (a := Action.write (.count 256 le_rfl))
      ⟨rfl, .write rfl le_rfl (by omega)⟩
    exact ⟨_, hwrite, rfl, hopen, rfl⟩

theorem Sent.exists_written (h : Sent s) (hl : s.loop = .select) (hline : s.lines[k]? = some line) :
    ∃ w, s.written[k]? = some w := by
  have hlength := h.length
  rw [hl, if_neg Loop.noConfusion, Nat.add_zero] at hlength
  have hk : k < s.written.length := hlength ▸ (List.getElem?_eq_some_iff.mp hline).1
  exact ⟨_, List.getElem?_eq_getElem hk⟩

/-- After two different lines of the same length a longer one is sent in the same bytes. -/
theorem written_eq_iff_longer : ∃ (s s' : State) (line : Line) (w : List UInt8),
    ((tcpClient false).restrict fun _ a => a.Full).Reachable s ∧
      ((tcpClient false).restrict fun _ a => a.Full).Reachable s' ∧
    s.lines.map Line.bytes = [[97, 10], [98, 99, 10]] ∧
      s'.lines.map Line.bytes = [[100, 10], [98, 99, 10]] ∧ s.lines[1]? = some line ∧
      s.written[1]? = some w ∧ s'.written[1]? = some w := by
  let a : Line := ⟨[97, 10], by decide, by decide, by decide⟩
  let d : Line := ⟨[100, 10], by decide, by decide, by decide⟩
  let line : Line := ⟨[98, 99, 10], by decide, by decide, by decide⟩
  obtain ⟨s, hs, hl, -, hlines⟩ := exists_run false [a, line]
  obtain ⟨s', hs', hl', -, hlines'⟩ := exists_run false [d, line]
  have hline : s.lines[1]? = some line := by rw [hlines]; rfl
  have hline' : s'.lines[1]? = some line := by rw [hlines']; rfl
  obtain ⟨w, hw⟩ := (sent_reachable hs).exists_written hl hline
  obtain ⟨w', hw'⟩ := (sent_reachable hs').exists_written hl' hline'
  have heq : w = w' := by
    refine (written_eq_iff hs hs' hline hline' hw hw').mpr fun p hlow _ => ?_
    have hlow' : 3 < p := hlow
    rw [hlines, hlines', leftover_of_short, leftover_of_short]
    · intro x hx
      obtain rfl := List.mem_singleton.mp hx
      exact (show 2 < p by omega)
    · intro x hx
      obtain rfl := List.mem_singleton.mp hx
      exact (show 2 < p by omega)
  subst heq
  exact ⟨s, s', line, w, hs, hs', by rw [hlines]; rfl, by rw [hlines']; rfl, hline, hw, hw'⟩

/-- Behind the second line the server finds the end of a longer first one. -/
theorem earlier_line_leaks :
    ¬ ∀ (s s' : State) (k : ℕ) (line : Line) (w w' : List UInt8),
      ((tcpClient false).restrict fun _ a => a.Full).Reachable s →
      ((tcpClient false).restrict fun _ a => a.Full).Reachable s' →
      s.lines[k]? = some line → s'.lines[k]? = some line →
      s.written[k]? = some w → s'.written[k]? = some w' → w = w' := by
  intro hall
  let long : Line := ⟨[97, 98, 99, 10], by decide, by decide, by decide⟩
  let short : Line := ⟨[10], by decide, by decide, by decide⟩
  let line : Line := ⟨[120, 10], by decide, by decide, by decide⟩
  obtain ⟨s, hs, hl, -, hlines⟩ := exists_run false [long, line]
  obtain ⟨s', hs', hl', -, hlines'⟩ := exists_run false [short, line]
  have hline : s.lines[1]? = some line := by rw [hlines]; rfl
  have hline' : s'.lines[1]? = some line := by rw [hlines']; rfl
  obtain ⟨w, hw⟩ := (sent_reachable hs).exists_written hl hline
  obtain ⟨w', hw'⟩ := (sent_reachable hs').exists_written hl' hline'
  have heq := hall s s' 1 line w w' hs hs' hline hline' hw hw'
  rw [(sent_reachable hs).written_eq hline hw, (sent_reachable hs').written_eq hline' hw', hlines,
    hlines', stored_concat_eq_iff] at heq
  have hleft : leftover [long] 3 = leftover [short] 3 :=
    heq 3 (show 2 < 3 by omega) (by omega)
  cases hleft

end UnixCodes.TcpClient
