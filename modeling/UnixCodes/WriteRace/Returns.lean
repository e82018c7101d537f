import UnixCodes.WriteRace.Serial

/-! `main` of `write_race.c` comes to its end, and what its threads print is what they have done. -/
namespace UnixCodes.WriteRace

open Posix Transition Mutex

variable {s s' : Race} {t u : Thread} {a : Action} {xs : List Action}

/-- The steps of `main` that are left, at most. -/
def MainPc.left : MainPc → ℕ
  | .setup .openFile => 10
  | .setup .malloc => 9
  | .setup .mutexInit => 8
  | .setup .create2 => 7
  | .setup .create1 => 6
  | .join .thread1 => 5
  | .printf .thread1 _ => 4
  | .join .thread2 => 3
  | .printf .thread2 _ => 2
  | .close => 1
  | .returned _ => 0

def Race.left (s : Race) : ℕ := s.main.left + (s.pc .thread1).left + (s.pc .thread2).left

theorem MainPc.left_next (c : Setup) : c.next.left < (MainPc.setup c).left := by
  cases c <;> decide

/-- A thread does not go back. -/
theorem left_thread (hs : Race.Step s a s') (h : Inv s) (t : Thread) :
    (s'.pc t).left ≤ (s.pc t).left := by
  rcases moves_step hs h t with ⟨he, -⟩ | hmove
  · rw [he]
  · exact (moves_left hmove).le

theorem left_main (hs : Race.Step s a s') :
    s'.main.left < s.main.left ∨ s'.main = s.main ∧ ∃ t, a.thread = some t := by
  cases hs with
  | @setup c hm =>
    left
    rw [hm]
    exact MainPc.left_next c
  | @fail c hm =>
    left
    rw [hm]
    cases c <;> simp [MainPc.left]
  | @join t value hm ht =>
    left
    rw [hm]
    cases t <;> simp [MainPc.left]
  | @printfMain t ptRet hm =>
    left
    rw [hm]
    cases t <;> simp [MainPc.left, MainPc.afterPrintf]
  | close hm =>
    left
    rw [hm]
    exact Nat.one_pos
  | _ => exact .inr ⟨rfl, _, rfl⟩

/-- Every step brings the program nearer to its end. -/
theorem left_step (hs : Race.Step s a s') (h : Inv s) : s'.left < s.left := by
  have h₁ := left_thread hs h .thread1
  have h₂ := left_thread hs h .thread2
  unfold Race.left
  rcases left_main hs with hlt | ⟨hm, t, ht⟩
  · omega
  · have hlt : (s'.pc t).left < (s.pc t).left := by
      rcases moves_step hs h t with ⟨-, hne⟩ | hmove
      · exact absurd ht hne
      · exact moves_left hmove
    rw [hm]
    cases t <;> omega

/-- A thread that does not wait for the mutex goes on. -/
theorem thread_goes_on (hrun : s.Running) (ha : s.pc t ≠ .absent) (hl : s.pc t ≠ .lock)
    (hret : ∀ v, s.pc t ≠ .returned v) : ∃ a s', Race.Step s a s' := by
  rcases hp : s.pc t with _ | _ | i | ⟨i, wn⟩ | _ | _ | v
  · exact absurd hp ha
  · exact absurd hp hl
  · exact ⟨_, _, .write hrun hp (.error EIO) fun _ => Exists.intro EIO rfl⟩
  · exact ⟨_, _, .printf hrun hp⟩
  · exact ⟨_, _, .unlock hrun hp⟩
  · exact ⟨_, _, .ret hrun hp⟩
  · exact absurd hp (hret v)

/-- While the process is there some step is possible: who holds the mutex does not wait. -/
theorem goes_on (h : Inv s) (hrun : s.Running) : ∃ a s', Race.Step s a s' := by
  rcases hm : s.main with c | t | ⟨t, v⟩ | _ | code
  · exact ⟨_, _, .setup hm⟩
  · have ha : s.pc t ≠ .absent := h.created t (by simp [hm, MainPc.Created])
    by_cases hret : ∃ v, s.pc t = .returned v
    · obtain ⟨v, hv⟩ := hret
      exact ⟨_, _, .join hm hv⟩
    by_cases hl : s.pc t = .lock
    · rcases hlock : s.lock with _ | u
      · exact ⟨_, _, .lock hrun hl hlock⟩
      · have hinside := (h.holder u).mp hlock
        apply thread_goes_on (t := u) hrun
        · intro hu
          rw [hu] at hinside
          exact hinside
        · intro hu
          rw [hu] at hinside
          exact hinside
        · intro v hu
          rw [hu] at hinside
          exact hinside
    · exact thread_goes_on hrun ha hl fun v hv => hret ⟨v, hv⟩
  · exact ⟨_, _, .printfMain hm⟩
  · exact ⟨_, _, .close hm⟩
  · exact absurd hm (hrun code)

/-- Every run is finite, and the program only stops when `main` has returned. -/
theorem race_returns : race.Ends .start fun s => ∃ code, s.main = .returned code := by
  apply System.ends_of_rank (I := fun s n => Inv s ∧ s.left = n) (n := Race.start.left)
  · rintro s a s' n hs ⟨h, rfl⟩
    exact ⟨s'.left, left_step hs h, inv_step hs h, rfl⟩
  · rintro s n ⟨h, -⟩ hstuck
    by_contra hrun
    obtain ⟨a, s', hs⟩ := goes_on h fun code hc => hrun ⟨code, hc⟩
    exact hstuck a s' hs
  · exact ⟨inv_start, rfl⟩

/-- The bytes that a line about a `write` of the thread reports. -/
def Line.report (t : Thread) : Line → Option ℕ
  | .writeError u _ => if u = t then some 0 else none
  | .wrote u wn => if u = t then some wn else none
  | _ => none

def reports (t : Thread) (printed : List Line) : List ℕ := printed.filterMap (Line.report t)

/-- The lines that `main` prints at the end. -/
def Line.ofMain : Line → Option (Thread × ℕ)
  | .returnValue t ptRet => some (t, ptRet)
  | _ => none

def returnValues (printed : List Line) : List (Thread × ℕ) := printed.filterMap Line.ofMain

/-- The report that is due. -/
def Pc.due : Pc → List ℕ
  | .printf _ (.ok wn) => [wn]
  | .printf _ (.error _) => [0]
  | _ => []

def MainPc.values : MainPc → List (Thread × ℕ)
  | .join .thread2 | .printf .thread2 _ => [(.thread1, 0x11)]
  | .close => [(.thread1, 0x11), (.thread2, 0x22)]
  | .returned code => if code = 0 then [(.thread1, 0x11), (.thread2, 0x22)] else []
  | _ => []

@[simp] theorem reports_concat {l : List Line} {x : Line} :
    reports t (l ++ [x]) = reports t l ++ (x.report t).toList := by
  unfold reports
  rw [List.filterMap_append, List.filterMap_cons]
  cases x.report t <;> rfl

@[simp] theorem Pc.due_loop (i : ℕ) : (Pc.loop i).due = [] := by
  unfold Pc.loop
  split <;> rfl

theorem Pc.due_result {i n : ℕ} (r : WriteResult n) :
    (Pc.printf i (result r)).due = [r.accepted] := by
  cases r <;> rfl

theorem report_ofWrite {i : ℕ} (wn : Except Errno ℕ) :
    ((Line.ofWrite t wn).report t).toList = (Pc.printf i wn).due := by
  cases wn <;> simp [Line.ofWrite, Line.report, Pc.due]

theorem report_ofWrite_of_ne (hne : u ≠ t) (wn : Except Errno ℕ) :
    (Line.ofWrite u wn).report t = none := by
  cases wn <;> simp [Line.ofWrite, Line.report, hne]

theorem moves_due {p q : Pc} (h : p.Moves t a q) (ha : a ≠ .printf t) :
    p.due ++ (chunks t [a]).map List.length = q.due := by
  cases h with
  | lock =>
    rw [Pc.due_loop]
    rfl
  | @write i hi r =>
    have hlength : (t.func.line.take r.accepted).length = r.accepted :=
      List.length_take_of_le r.accepted_le
    rw [Pc.due_result, ← hlength]
    simp [chunks, history, Action.event, accessesBy, Pc.due]
  | printf => exact absurd rfl ha
  | _ => rfl

/-- Only the thread itself prints about its writes. -/
theorem reports_same (hs : Race.Step s a s') (ha : a ≠ .printf t) :
    reports t s'.printed = reports t s.printed := by
  cases hs with
  | @printf u i wn hrun ht =>
    have hne : u ≠ t := fun he => ha (he ▸ rfl)
    simp [Race.setPc, Race.print, report_ofWrite_of_ne hne]
  | fail hm => simp [Race.print, Line.report]
  | printfMain hm => simp [Race.print, Line.report]
  | _ => rfl

/-- What a step prints about a thread, and what it makes due. -/
theorem reports_step (hs : Race.Step s a s') (h : Inv s) (t : Thread) :
    reports t s.printed ++ (s.pc t).due ++ (chunks t [a]).map List.length =
      reports t s'.printed ++ (s'.pc t).due := by
  by_cases ha : a = .printf t
  · subst ha
    cases hs with
    | @printf t i wn hrun ht =>
      have hnone : chunks t [.printf t] = [] := rfl
      simp [Race.setPc, Race.print, ht, report_ofWrite (i := i), hnone]
  · rw [reports_same hs ha]
    rcases moves_step hs h t with ⟨he, hne⟩ | hmove
    · rw [he, (event_of_thread_ne hne).1, List.map_nil, List.append_nil]
    · rw [List.append_assoc, moves_due hmove ha]

theorem Inv.reports (h : Inv s) (hr : race.Run s xs s') (t : Thread) :
    reports t s.printed ++ (s.pc t).due ++ (chunks t xs).map List.length =
      WriteRace.reports t s'.printed ++ (s'.pc t).due := by
  induction hr with
  | refl => simp [chunks, history, accessesBy]
  | @stepL s a u xs s' hs _ ih =>
    rw [chunks_cons, List.map_append, ← List.append_assoc, reports_step hs h t]
    exact ih (inv_step hs h)

theorem returnValues_step (hs : Race.Step s a s') (h : Inv s)
    (hv : returnValues s.printed = s.main.values) : returnValues s'.printed = s'.main.values := by
  have hconcat (l : List Line) (x : Line) :
      returnValues (l ++ [x]) = returnValues l ++ x.ofMain.toList := by
    unfold returnValues
    rw [List.filterMap_append, List.filterMap_cons]
    cases x.ofMain <;> rfl
  cases hs with
  | @setup c hm =>
    rw [hm] at hv
    refine hv.trans ?_
    cases c <;> rfl
  | @fail c hm =>
    rw [hm] at hv
    simp [Race.print, hconcat, hv, MainPc.values, Line.ofMain]
  | @join t value hm ht =>
    rw [hm] at hv
    refine hv.trans ?_
    cases t <;> rfl
  | @printfMain t ptRet hm =>
    obtain rfl := h.ptRet t ptRet hm
    rw [hm] at hv
    simp only [Race.print, hconcat, hv]
    cases t <;> rfl
  | close hm =>
    rw [hm] at hv
    exact hv
  | @printf u i wn hrun ht =>
    have hnone : (Line.ofWrite u wn).ofMain = none := by cases wn <;> rfl
    simp only [Race.setPc, Race.print, hconcat, hnone, Option.toList_none, List.append_nil]
    exact hv
  | _ => exact hv

/-- The threads report their writes call by call, up to one that is due; a program that returns 0
has reported all of them, and the two values that the threads return. -/
theorem race_reports (hr : race.Run .start xs s) :
    (∀ t, reports t s.printed ++ (s.pc t).due = (chunks t xs).map List.length) ∧
      (s.main = .returned 0 →
        (∀ t, reports t s.printed = (chunks t xs).map List.length) ∧
          returnValues s.printed = [(.thread1, 0x11), (.thread2, 0x22)]) := by
  have hinv : Inv s := inv_reachable ⟨.start, xs, rfl, hr⟩
  have hreports (t : Thread) :
      reports t s.printed ++ (s.pc t).due = (chunks t xs).map List.length :=
    (inv_start.reports hr t).symm
  refine ⟨hreports, fun hm => ⟨fun t => ?_, ?_⟩⟩
  · rw [← hreports t, hinv.joined t (by rw [hm]; rfl)]
    exact (List.append_nil _).symm
  · have hvalues : Inv s ∧ returnValues s.printed = s.main.values := by
      apply System.run_invariant ?_ hr ⟨inv_start, rfl⟩
      rintro s a s' hs ⟨h, hv⟩
      exact ⟨inv_step hs h, returnValues_step hs h hv⟩
    rw [hvalues.2, hm]
    rfl

theorem race_reports_both : ∃ xs s, race.Run .start xs s ∧ s.main = .returned 0 ∧
    (∀ t, reports t s.printed = (chunks t xs).map List.length) ∧
    returnValues s.printed = [(.thread1, 0x11), (.thread2, 0x22)] := by
  obtain ⟨xs, s, hr, hmain, -⟩ := run_both
  obtain ⟨-, hreported⟩ := race_reports hr
  exact ⟨xs, s, hr, hmain, hreported hmain⟩

end UnixCodes.WriteRace
