import UnixCodes.AcoHttpd.Lifecycle
import UnixCodes.Lib.Outcome

/-! The mode of the descriptors that enter the loop. -/
namespace UnixCodes.AcoHttpd

open Posix Transition

variable {sFd fd p q : ℕ} {w w' w₁ : World} {s s' s₀ : Server} {k : Answers} {ka : AcceptAnswers}
  {a : Action} {xs : List Action} {x : Item} {cFd : ℕ} {flags : BitVec 32} {u : Option ℕ}

def File.NonBlocking (f : File) : Prop := f.flags &&& O_NONBLOCK ≠ 0

/-- Every registered client descriptor is non-blocking, and no descriptor whose mode could not be
set has passed the check. -/
structure OnlyNonBlocking (sFd : ℕ) (w : World) : Prop where
  registered : ∀ fd u, fd ≠ sFd → w.fds.registration fd = some u →
    ∃ f, w.fds.file fd = some f ∧ File.NonBlocking f
  rejected : ∀ x ∈ w.screened, x.passed = true → x.settled = true

/-- The step is a turn of `handle_accept` whose `F_SETFL` fails. -/
def Action.SetflFails : Action → Prop
  | .accept k => k.accepted.isSome = true ∧ k.setfl.isNone = false
  | _ => False

/-- No check is made, and what is still registered is the file it was. -/
structure Keeps (w w' : World) : Prop where
  screened : w'.screened = w.screened
  file : ∀ fd u, w'.fds.registration fd = some u →
    w.fds.registration fd = some u ∧ w'.fds.file fd = w.fds.file fd

theorem Keeps.of_fds (hs : w'.screened = w.screened) (hf : w'.fds = w.fds) : Keeps w w' :=
  ⟨hs, fun fd u h => ⟨hf ▸ h, by rw [hf]⟩⟩

theorem Keeps.trans (h : Keeps w w₁) (h' : Keeps w₁ w') : Keeps w w' := by
  refine ⟨h'.screened.trans h.screened, fun fd u hu => ?_⟩
  obtain ⟨hu₁, hf'⟩ := h'.file fd u hu
  obtain ⟨hu, hf⟩ := h.file fd u hu₁
  exact ⟨hu, hf'.trans hf⟩

theorem keeps_free (h : w.free p = .ok w') : Keeps w w' := by
  unfold World.free at h
  split at h
  · cases h
    exact .of_fds rfl rfl
  · cases h

theorem keeps_deregister : Keeps w { w with fds := w.fds.deregister q } := by
  refine ⟨rfl, fun fd u hu => ?_⟩
  by_cases he : fd = q
  · subst he
    cases Descriptors.registration_deregister_self.symm.trans hu
  · exact ⟨(Descriptors.registration_deregister_of_ne he).symm.trans hu, rfl⟩

theorem keeps_close (h : w.close q = .ok w') : Keeps w w' := by
  unfold World.close at h
  split at h
  · cases h
    refine ⟨rfl, fun fd u hu => ?_⟩
    by_cases he : fd = q
    · subst he
      cases Descriptors.registration_close_self.symm.trans hu
    · exact ⟨(Descriptors.registration_close_of_ne he).symm.trans hu,
        Descriptors.file_close_of_ne he⟩
  · cases h

theorem keeps_pollDelete {delete : Option Errno} (h : pollDelete w p delete = .ok w') :
    Keeps w w' := by
  obtain ⟨c, -, h⟩ := bind_eq_ok h
  cases delete with
  | some e =>
    cases h
    exact .of_fds rfl rfl
  | none =>
    obtain ⟨w₁, hfree, hclose⟩ := bind_eq_ok h
    exact (keeps_deregister.trans (keeps_free hfree)).trans (keeps_close hclose)

theorem keeps_dispatch {r : World × ℕ × ℕ} (h : dispatch w x = .ok r) : Keeps w r.1 := by
  unfold dispatch at h
  split at h
  · cases h
  · obtain ⟨c, -, h⟩ := bind_eq_ok h
    obtain ⟨⟨arg, pc⟩, -, h⟩ := bind_eq_ok h
    dsimp only at h
    split at h
    · cases h
      exact .of_fds rfl rfl
    · cases h

theorem keeps_call {co : ℕ} {r : World × Bool} (h : w.call co k = .ok r) : Keeps w r.1 := by
  obtain ⟨⟨arg, pc⟩, -, h⟩ := bind_eq_ok h
  cases pc with
  | deleting =>
    obtain ⟨w₁, hdelete, h⟩ := bind_eq_ok h
    cases h
    exact (keeps_pollDelete hdelete).trans (.of_fds rfl rfl)
  | reading =>
    obtain ⟨c, -, h⟩ := bind_eq_ok h
    cases h
    exact .of_fds rfl rfl
  | writing =>
    obtain ⟨c, -, h⟩ := bind_eq_ok h
    cases h
    exact .of_fds rfl rfl
  | created | yielding | yielded | exiting | ended =>
    cases h
    exact .of_fds rfl rfl

theorem keeps_reap (h : reap w p = .ok w') : Keeps w w' := by
  obtain ⟨c, -, h⟩ := bind_eq_ok h
  obtain ⟨⟨arg, pc⟩, -, h⟩ := bind_eq_ok h
  dsimp only at h
  split at h
  · obtain ⟨w₁, hco, hconn⟩ := bind_eq_ok h
    exact (keeps_free hco).trans (keeps_free hconn)
  · cases h
    exact .of_fds rfl rfl

theorem map_eq_ok {α β : Type} {m : Except Fault α} {f : α → β} {b : β} (h : m.map f = .ok b) :
    ∃ a, m = .ok a ∧ b = f a := by
  cases m with
  | error => cases h
  | ok a =>
    cases h
    exact ⟨a, rfl, rfl⟩

/-- Only `handle_accept` opens, registers or checks descriptors. -/
theorem step_world (h : Server.Step sFd s a (.ok s')) :
    Keeps s.world s'.world ∧ (∀ k, a ≠ .accept k) ∨
      ∃ k again, a = .accept k ∧ FreshFd s.world k ∧ AcceptEffect s.world k (s'.world, again) := by
  generalize hr : Except.ok s' = r at h
  cases h with
  | failed =>
    cases hr
    exact .inl ⟨.of_fds rfl rfl, by simp⟩
  | wait =>
    cases hr
    exact .inl ⟨.of_fds rfl rfl, by simp⟩
  | done =>
    cases hr
    exact .inl ⟨.of_fds rfl rfl, by simp⟩
  | acceptable =>
    cases hr
    exact .inl ⟨.of_fds rfl rfl, by simp⟩
  | dispatch =>
    obtain ⟨r, hd, rfl⟩ := map_eq_ok hr.symm
    exact .inl ⟨keeps_dispatch hd, by simp⟩
  | accept k hk =>
    obtain ⟨⟨w', again⟩, hd, rfl⟩ := map_eq_ok hr.symm
    exact .inr ⟨k, again, rfl, hk, effect_of_ok hd⟩
  | call =>
    obtain ⟨r, hd, rfl⟩ := map_eq_ok hr.symm
    exact .inl ⟨keeps_call hd, by simp⟩
  | reap =>
    obtain ⟨w', hd, rfl⟩ := map_eq_ok hr.symm
    exact .inl ⟨keeps_reap hd, by simp⟩

/-! What a turn of `handle_accept` does to the mode. -/

theorem screened_accept {r : World × Bool} (h : AcceptEffect w ka r) :
    r.1.screened = w.screened ++ if ka.accepted.isSome then [⟨ka.setfl.isNone, true⟩] else [] := by
  have hscreen {cFd : ℕ} {flags : BitVec 32} : ((w.acceptFd cFd flags).screen cFd ka).screened =
      w.screened ++ [⟨ka.setfl.isNone, true⟩] := rfl
  cases h with
  | noClient hclient => simp [AcceptAnswers.accepted, hclient]
  | noConn hclient hconn => simp [AcceptAnswers.accepted, hconn, World.malloc]
  | failed hclient hconn e he => simp [AcceptAnswers.accepted, he]
  | again hclient hconn he => simp [AcceptAnswers.accepted, he, World.mallocs, World.malloc]
  | noRoutine hclient hconn cFd flags he => simp [accepted_eq hclient hconn he, hscreen]
  | accepted hclient hconn cFd flags he =>
    rw [accepted_eq hclient hconn he, pollAdd_screened]
    exact hscreen

/-- `F_SETFL` sets the bit, whatever `F_GETFL` has returned. -/
theorem accept_nonBlocking {r : World × Bool} (hk : FreshFd w ka) (h : AcceptEffect w ka r)
    (ha : ka.accepted = some fd) (hset : ka.setfl = none) :
    ∃ f, r.1.fds.file fd = some f ∧ File.NonBlocking f := by
  obtain ⟨flags, he, hfile⟩ := file_accept h ha
  have hopen : (w.fds.openFile fd flags).file fd = some ⟨w.fds.opened, flags⟩ :=
    Descriptors.file_openFile_self (hk _ _ he)
  rw [hfile]
  unfold World.screen setNonBlocking
  rw [hset]
  refine ⟨_, Descriptors.file_setFlags_self hopen, ?_⟩
  intro hzero
  have hbit := congrArg (fun v => v.getLsbD 2) hzero
  simp [O_NONBLOCK] at hbit

theorem onlyNonBlocking_initial (h : Server.Initial sFd s) : OnlyNonBlocking sFd s.world := by
  obtain ⟨-, -, hscreened, hreg, -⟩ := h
  refine ⟨fun fd u hne hu => ?_, by simp [hscreened]⟩
  rw [hreg] at hu
  simp [hne] at hu

theorem Keeps.onlyNonBlocking (h : Keeps w w') (hw : OnlyNonBlocking sFd w) :
    OnlyNonBlocking sFd w' := by
  refine ⟨fun fd u hne hu => ?_, h.screened ▸ hw.rejected⟩
  obtain ⟨hu, hf⟩ := h.file fd u hu
  rw [hf]
  exact hw.registered fd u hne hu

theorem onlyNonBlocking_step (h : Server.Step sFd s a (.ok s')) (ha : ¬ a.SetflFails)
    (hs : OnlyNonBlocking sFd s.world) : OnlyNonBlocking sFd s'.world := by
  rcases step_world h with ⟨hkeeps, -⟩ | ⟨k, again, rfl, hk, heff⟩
  · exact hkeeps.onlyNonBlocking hs
  · have hset {fd : ℕ} (hacc : k.accepted = some fd) : k.setfl = none := by
      cases hset : k.setfl with
      | none => rfl
      | some e => exact (ha ⟨by simp [hacc], by simp [hset]⟩).elim
    refine ⟨fun fd u hne hu => ?_, fun x hx hpass => ?_⟩
    · rcases registered_accept hk heff hu with hreg | ⟨hacc, -⟩
      · obtain ⟨f, hf, hnb⟩ := hs.registered fd u hne hreg
        exact ⟨f, ((extends_accept hk heff).file fd f hf).1, hnb⟩
      · exact accept_nonBlocking hk heff hacc (hset hacc)
    · rw [screened_accept heff, List.mem_append] at hx
      rcases hx with hx | hx
      · exact hs.rejected x hx hpass
      · cases hacc : k.accepted with
        | none => simp [hacc] at hx
        | some fd =>
          obtain rfl : x = ⟨k.setfl.isNone, true⟩ := by simpa [hacc] using hx
          simp [hset hacc]

/-- What has been checked stays on record. -/
theorem screened_step (h : Server.Step sFd s a (.ok s')) :
    ∀ x ∈ s.world.screened, x ∈ s'.world.screened := by
  intro x hx
  rcases step_world h with ⟨hkeeps, -⟩ | ⟨k, again, rfl, hk, heff⟩
  · rw [hkeeps.screened]
    exact hx
  · rw [screened_accept heff]
    exact List.mem_append_left _ hx

theorem screened_run (h : (server sFd).Run s xs s') :
    ∀ x ∈ s.world.screened, x ∈ s'.world.screened := by
  intro x hx
  apply System.run_invariant (P := fun s => x ∈ s.world.screened) ?_ h hx
  intro s a t hs hx
  exact screened_step hs x hx

/-- A failed `F_SETFL` goes on record as a descriptor that has passed. -/
theorem screened_setflFails (h : Server.Step sFd s a (.ok s')) (ha : a.SetflFails) :
    ⟨false, true⟩ ∈ s'.world.screened := by
  rcases step_world h with ⟨-, hne⟩ | ⟨k, again, rfl, hk, heff⟩
  · cases a with
    | accept k => exact absurd rfl (hne k)
    | kevent | call | main => exact ha.elim
  · rw [screened_accept heff, if_pos ha.1, ha.2]
    simp

/-- In a run the property holds at the end if and only if no `F_SETFL` on an accepted descriptor
has failed on the way. -/
theorem onlyNonBlocking_iff (hi : Server.Initial sFd s₀) (h : (server sFd).Run s₀ xs s) :
    OnlyNonBlocking sFd s.world ↔ ∀ a ∈ xs, ¬ a.SetflFails := by
  constructor
  · intro hs a hmem hfails
    clear hi
    induction h with
    | refl => cases hmem
    | stepL hstep hrest ih =>
      rcases List.mem_cons.mp hmem with rfl | hmem
      · have hx := screened_run hrest _ (screened_setflFails hstep hfails)
        exact absurd (hs.rejected _ hx rfl) (by simp)
      · exact ih hs hmem
  · intro hall
    have hs := onlyNonBlocking_initial hi
    clear hi
    induction h with
    | refl => exact hs
    | stepL hstep hrest ih =>
      obtain ⟨ha, hall⟩ := List.forall_mem_cons.mp hall
      exact ih hall (onlyNonBlocking_step hstep ha hs)

def EINVAL : Errno := ⟨22, by decide⟩

/-- A client is accepted in blocking mode, and `F_SETFL` fails. -/
theorem setflFails_run : ∃ (s : Server) (xs : List Action), (server 3).Run (.start 3) xs s ∧
    (¬ ∀ a ∈ xs, ¬ a.SetflFails) ∧ s.world.fds.registration 5 = some (some 1) ∧
    s.world.fds.file 5 = some ⟨1, 2⟩ := by
  let k : AcceptAnswers := { AcceptAnswers.plain (.ok (5, 2)) with setfl := some EINVAL }
  refine ⟨_, _, .stepL (.wait [⟨3, none⟩] (by decide) (List.forall_mem_singleton.mpr rfl)
    (by decide)) <| .stepL (.acceptable rfl) <| .stepL (.accept k ?_) .refl, ?_, rfl, rfl⟩
  · rintro _ _ ⟨⟩
    rfl
  · intro hall
    exact hall (.accept k) (by simp) ⟨rfl, rfl⟩

theorem onlyNonBlocking_iff_setflFails :
    ∃ (s : Server) (xs : List Action), (server 3).Run (.start 3) xs s ∧
      s.world.fds.registration 5 = some (some 1) ∧
      (OnlyNonBlocking 3 s.world ↔ ∀ a ∈ xs, ¬ a.SetflFails) := by
  obtain ⟨s, xs, hrun, -, hreg, -⟩ := setflFails_run
  exact ⟨s, xs, hrun, hreg, onlyNonBlocking_iff (start_initial 3) hrun⟩

/-- The blocking descriptor is registered: `set_non_blocking` has returned a positive number. -/
theorem setflFails_registers :
    ¬ ∀ s : Server, (server 3).Reachable s → OnlyNonBlocking 3 s.world := by
  intro hall
  obtain ⟨s, xs, hrun, -, hreg, hfile⟩ := setflFails_run
  obtain ⟨f, hf, hnb⟩ := (hall s ⟨_, _, start_initial 3, hrun⟩).registered 5 _ (by decide) hreg
  rw [hfile] at hf
  cases hf
  exact hnb (by decide)

end UnixCodes.AcoHttpd
