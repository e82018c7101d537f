import UnixCodes.AcoHttpd.OnLibaco

/-! The runs of `aco_httpd` on `libaco`: no call of the library fails, and a routine finds its
locals again. -/
namespace UnixCodes.AcoHttpd

open Posix Transition
open Libaco (Arch Machine Op Usage Malloc Allowed perform coSystem SameContext)

variable {A : Arch} {protector sFd k fp co conn : ℕ} {s s' : Server} {a : Action} 
  {x y z u : Process} {t t' : Turn} {ts : List Turn} {m m' : Machine} {evs : List Item} {op : Op}

/-- The library has the coroutines that the server has, on the share stack `k`. -/
structure Linked (A : Arch) (protector sFd k fp : ℕ) (x : Process) : Prop where
  server : Sound sFd x.server
  machine : (coSystem A protector).Reachable x.machine
  stack : x.machine.HasStack k
  usage : x.machine.usage = x.server.usage k fp

theorem linked_initial (h : (process A protector sFd k fp).Initial x) :
    Linked A protector sFd k fp x := by
  obtain ⟨hserver, m, pgsz, addr, junk, hm, hrun⟩ := h
  have hreach : (coSystem A protector).Reachable m := ⟨m, [], hm, .refl⟩
  cases hrun with
  | @stepL _ _ m₁ _ _ hinit hrest =>
    cases hrest with
    | stepL hnew hend =>
      cases hend
      have hreach₁ := hreach.step hinit
      have hinit' := (Libaco.step_effect (Libaco.reachable_inv hreach) hinit).threadInit_usage
      obtain ⟨hnew', hstack⟩ :=
        (Libaco.step_effect (Libaco.reachable_inv hreach₁) hnew).shareStackNew_usage
      refine ⟨sound_initial hserver, hreach₁.step hnew, hstack, ?_⟩
      rw [hnew', hinit']
      obtain ⟨hloop, hheap, -⟩ := hserver
      obtain ⟨hgtls, hco, -⟩ := hm
      unfold Machine.usage Server.usage
      rw [hgtls, hloop, hheap]
      refine congrArg (Usage.mk none) (funext fun c => ?_)
      exact Libaco.handles_eq_none.mpr (hco c)

/-- Whatever the server does next, the library does its part. -/
theorem Linked.turn (h : Linked A protector sFd k fp x)
    (hwithin : Allowed A x.machine (.compute t.reg t.bytes)) {r : Except Fault Server}
    (hstep : Server.Step sFd x.server t.action r)
    (hcall : LibCall sFd k fp x.server t.action t.call) :
    ∃ y, r = .ok y.server ∧ (process A protector sFd k fp).Step x t y ∧
      (coSystem A protector).Run x.machine t.ops y.machine ∧ Linked A protector sFd k fp y := by
  obtain ⟨s, rfl, hsound⟩ := sound_step hstep h.server
  have hinv := Libaco.reachable_inv h.machine
  obtain ⟨m, hm, hcompute⟩ := Libaco.perform_effect hinv hwithin
  have husage : m.usage = x.server.usage k fp := hcompute.compute_usage.trans h.usage
  have huse : Usage.Step k m.usage t.call (s.usage k fp) :=
    husage ▸ server_uses h.server hstep rfl hcall
  obtain ⟨m', hm', hrun, hstack', husage'⟩ :=
    Libaco.performCall_ok (hcompute.inv hinv) (hcompute.hasStack nofun h.stack) huse
  have hrun' : (coSystem A protector).Run x.machine t.ops m' := .stepL ⟨hwithin, hm⟩ hrun
  refine ⟨⟨s, m'⟩, rfl, ⟨hwithin, hstep, hcall, m, hm, hm'⟩, hrun', hsound, ?_, hstack', husage'⟩
  obtain ⟨m₀, ops, hinit, hrun₀⟩ := h.machine
  exact ⟨m₀, ops ++ t.ops, hinit, hrun₀.append hrun'⟩

/-- There is nothing else that a turn can do. -/
theorem Linked.step (h : Linked A protector sFd k fp x)
    (hstep : (process A protector sFd k fp).Step x t y) :
    (coSystem A protector).Run x.machine t.ops y.machine ∧ Linked A protector sFd k fp y := by
  obtain ⟨hwithin, hserver, hcall, m, hm, hm'⟩ := hstep
  obtain ⟨y', hs, ⟨-, -, -, m₁, hm₁, hm₁'⟩, hrun, hlinked⟩ := h.turn hwithin hserver hcall
  rw [hm] at hm₁
  cases hm₁
  rw [hm'] at hm₁'
  obtain rfl : y = y' := by
    cases y
    cases y'
    cases hs
    cases hm₁'
    rfl
  exact ⟨hrun, hlinked⟩

theorem linked_reachable (h : (process A protector sFd k fp).Reachable x) :
    Linked A protector sFd k fp x :=
  System.reachable_invariant (fun _ hi => linked_initial hi) (fun _ _ _ hs hl => (hl.step hs).2) h

/-- Every step of the server has its call. -/
theorem libCall_exists (hs : Sound sFd s) {r : Except Fault Server} (hstep : Server.Step sFd s a r)
    (malloc : Malloc) : ∃ call, LibCall sFd k fp s a call := by
  cases hstep with
  | failed | wait => exact ⟨none, .kevent _⟩
  | done => exact ⟨none, .done⟩
  | acceptable heq => exact ⟨none, .acceptable heq⟩
  | @dispatch w y evs hne =>
    obtain ⟨hclients, hpending⟩ := hs
    have hreg := hpending.registered y List.mem_cons_self
    cases hu : y.udata with
    | none => exact absurd (hclients.listener _ (hu ▸ hreg)) hne
    | some conn =>
      obtain ⟨c, pc, hserved, -⟩ := hclients.served _ conn (hu ▸ hreg)
      exact ⟨_, .resume hne hu (conn_ok hserved.conn) malloc⟩
  | @accept w evs ka _ =>
    by_cases hyes : ka.mallocClient = true ∧ ka.mallocConn = true ∧ (∃ r, ka.accept = .ok r) ∧
        ka.acoCreate = true
    · obtain ⟨hclient, hconn, ⟨⟨cFd, flags⟩, he⟩, hcreate⟩ := hyes
      exact ⟨_, .create hclient hconn cFd flags he hcreate malloc⟩
    · refine ⟨none, .noCreate fun hclient hconn he => ?_⟩
      by_contra hcreate
      exact hyes ⟨hclient, hconn, he, by simpa using hcreate⟩
  | @call w conn co evs ks _ =>
    obtain ⟨-, -, c, pc, hcur, -⟩ := hs
    have hroutine := routine_ok hcur.routine
    by_cases hyield : pc = .yielding
    · exact ⟨_, .yield (hyield ▸ hroutine) ks⟩
    by_cases hexit : pc = .exiting
    · exact ⟨_, .exit (hexit ▸ hroutine) ks⟩
    · exact ⟨_, .goOn hroutine hyield hexit ks⟩
  | @reap w conn evs =>
    obtain ⟨-, -, c, pc, hcur, -⟩ := hs
    have hconn := conn_ok hcur.block
    have hroutine := routine_ok hcur.routine
    by_cases hend : pc = .ended
    · exact ⟨_, .destroy hconn (hend ▸ hroutine)⟩
    · exact ⟨_, .keep hconn hroutine hend⟩

/-- Whoever runs may leave everything as it is. -/
theorem idle_allowed (h : m.Inv A protector) : ∃ bytes, Allowed A m (.compute m.cpu bytes) := by
  rcases Libaco.mainRuns_or m with hmain | ⟨c, hgtls⟩
  · exact ⟨fun _ => 0, fun c _ _ hg => absurd hg (hmain c)⟩
  · obtain ⟨co, stk, hco, -, hstk, -, hlow, hret⟩ := h.running c hgtls
    refine ⟨stk.bytes, fun c' co' stk' hg hc hs => ?_⟩
    cases hgtls.symm.trans hg
    cases hco.symm.trans hc
    cases hstk.symm.trans hs
    exact ⟨hlow, hret, fun _ _ => rfl⟩

theorem Linked.goes {s : Server} (h : Linked A protector sFd k fp x)
    (hstep : Server.Step sFd x.server a (.ok s)) {call : Option Op}
    (hcall : LibCall sFd k fp x.server a call) : ∃ m reg bytes,
      (process A protector sFd k fp).Step x ⟨a, reg, bytes, call⟩ ⟨s, m⟩ ∧
        Linked A protector sFd k fp ⟨s, m⟩ := by
  obtain ⟨bytes, hwithin⟩ := idle_allowed (Libaco.reachable_inv h.machine)
  obtain ⟨⟨s', m⟩, hs, hgoes, -, hlinked⟩ :=
    h.turn (t := ⟨a, x.machine.cpu, bytes, call⟩) hwithin hstep hcall
  cases hs
  exact ⟨m, _, bytes, hgoes, hlinked⟩

/-- The library keeps the server from nothing. -/
theorem process_covers (fp : ℕ) (hm : SetUp A protector k m) (hs : (server sFd).Reachable s) :
    ∃ m, (process A protector sFd k fp).Reachable ⟨s, m⟩ := by
  apply System.reachable_invariant ?_ ?_ hs
  · intro s hinit
    exact ⟨m, ⟨s, m⟩, [], ⟨hinit, hm⟩, .refl⟩
  · rintro s a s' hstep ⟨m, hreach⟩
    have hlinked := linked_reachable hreach
    obtain ⟨call, hcall⟩ := libCall_exists hlinked.server hstep fun _ => (0, fun _ => 0)
    obtain ⟨m', reg, bytes, hgoes, -⟩ := hlinked.goes hstep hcall
    exact ⟨m', hreach.step hgoes⟩

/-- The coroutines of the library are the routines of the server, with their arguments, and the one
that runs is the one that the loop waits for; whatever the server does next, it has one call of the
library at most, and the library does not refuse it. -/
theorem library_serves (h : (process A protector sFd k fp).Reachable x) :
    x.machine.usage = x.server.usage k fp ∧
    ∀ a r, Server.Step sFd x.server a r → (∃ call, LibCall sFd k fp x.server a call) ∧
      ∀ reg bytes call, Allowed A x.machine (.compute reg bytes) →
        LibCall sFd k fp x.server a call →
        ∃ y, r = .ok y.server ∧ (process A protector sFd k fp).Step x ⟨a, reg, bytes, call⟩ y := by
  have hlinked := linked_reachable h
  refine ⟨hlinked.usage, fun a r hstep => ⟨?_, fun reg bytes call hwithin hcall => ?_⟩⟩
  · exact libCall_exists hlinked.server hstep fun _ => (0, fun _ => 0)
  · obtain ⟨y, hs, hstep', -, -⟩ := hlinked.turn (t := ⟨a, reg, bytes, call⟩) hwithin hstep hcall
    exact ⟨y, hs, hstep'⟩

theorem setUp_start : ∃ m, SetUp .x86_64 7 0 m := by
  have hstart := Libaco.startMachine_initial .x86_64 7
  have hinit : (coSystem .x86_64 7).Step Libaco.startMachine .threadInit
      { Libaco.startMachine with fpu := fun _ => 0 } := ⟨nofun, rfl⟩
  have hallowed : Allowed .x86_64 { Libaco.startMachine with fpu := fun _ => 0 }
      (.shareStackNew 0 (1 <<< 10) true 4096 8192 fun _ => 0) := by
    refine ⟨rfl, by decide, by decide, by decide, by decide, fun _ => ?_⟩
    exact ⟨by decide, ⟨12, by decide⟩, by decide⟩
  obtain ⟨m, hm, -⟩ := Libaco.perform_effect
    (Libaco.step_inv (Libaco.initial_inv hstart) hinit) hallowed
  exact ⟨m, _, 4096, 8192, _, hstart, .stepL hinit (.stepL ⟨hallowed, hm⟩ .refl)⟩

theorem library_serves_accept : ∃ x y reg bytes, (process .x86_64 7 3 0 100).Reachable x ∧
    (process .x86_64 7 3 0 100).Step x
      ⟨.accept (.plain (.ok (5, 2))), reg, bytes,
        some (.create 2 0 0 100 1 Libaco.sameBlock)⟩ y := by
  have hfresh : FreshFd (Server.start 3).world (.plain (.ok (5, 2))) := by
    rintro _ _ ⟨⟩
    rfl
  have hs : (server 3).Reachable ⟨(Server.start 3).world, .accepting []⟩ :=
    ⟨_, _, start_initial 3,
      .stepL (.wait [⟨3, none⟩] (by decide) (List.forall_mem_singleton.mpr rfl) (by decide)) <|
      .stepL (.acceptable rfl) .refl⟩
  obtain ⟨m, hm⟩ := setUp_start
  obtain ⟨m', hreach⟩ := process_covers 100 hm hs
  obtain ⟨bytes, hwithin⟩ := idle_allowed (Libaco.reachable_inv (linked_reachable hreach).machine)
  obtain ⟨-, hserves⟩ := library_serves hreach
  obtain ⟨-, hcalls⟩ := hserves _ _ (.accept (.plain (.ok (5, 2))) hfresh)
  obtain ⟨y, -, hstep⟩ := hcalls _ _ _ hwithin (.create rfl rfl 5 2 rfl rfl Libaco.sameBlock)
  exact ⟨_, y, _, _, hreach, hstep⟩

theorem routine_of_ok {w : World} {arg : ℕ} {pc : Pc} (h : w.routine co = .ok (arg, pc)) :
    w.heap.block co = some (.routine arg pc) := by
  unfold World.routine at h
  split at h
  · next hblock =>
    cases h
    exact hblock
  · cases h

/-- Only a routine that has ended is destroyed. -/
theorem destroy_ended (h : LibCall sFd k fp s a (some (.destroy co))) :
    ¬ (s.usage k fp).Suspended co := by
  rintro ⟨-, hd, hc, hend⟩
  cases h with
  | @destroy w _ arg _ c _ hr =>
    have hhandle : handleAt k fp w.heap c.routine = some ⟨arg, fp, true, k⟩ :=
      handleAt_routine (routine_of_ok hr)
    cases hhandle.symm.trans hc
    cases hend

theorem turn_not_names (hsusp : (x.server.usage k fp).Suspended co)
    (hcall : LibCall sFd k fp x.server t.action t.call)
    (ht : ∀ malloc, t.call ≠ some (.resume co malloc)) : ∀ op ∈ t.call, ¬ op.Names co := by
  rintro op hop (⟨malloc, rfl⟩ | rfl)
  · exact ht malloc hop
  · rw [hop] at hcall
    exact destroy_ended hcall hsusp

/-- Until it is resumed nothing happens in the library that names a suspended routine. -/
theorem run_not_names (hrun : (process A protector sFd k fp).Run y ts z)
    (h : Linked A protector sFd k fp y) (hsusp : (y.server.usage k fp).Suspended co)
    (hts : ∀ t ∈ ts, ∀ malloc, t.call ≠ some (.resume co malloc)) :
    Linked A protector sFd k fp z ∧ ∃ ops, (coSystem A protector).Run y.machine ops z.machine ∧
      ∀ op ∈ ops, ¬ op.Names co := by
  induction hrun with
  | refl => exact ⟨h, [], .refl, by simp⟩
  | @stepL y t y₁ ts z hstep _ ih =>
    obtain ⟨ht, hts⟩ := List.forall_mem_cons.mp hts
    have hnames := turn_not_names hsusp hstep.call ht
    obtain ⟨hrun, hlinked⟩ := h.step hstep
    have huse := server_uses h.server hstep.server rfl hstep.call
    obtain ⟨hz, ops, hrun', hops⟩ := ih hlinked (hsusp.step huse hnames) hts
    refine ⟨hz, t.ops ++ ops, hrun.append hrun', fun op hop => ?_⟩
    rcases List.mem_append.mp hop with hop | hop
    · rcases List.mem_cons.mp hop with rfl | hop
      · simp [Op.Names]
      · exact hnames op (Option.mem_toList.mp hop)
    · exact hops op hop

theorem Linked.run_call (h : Linked A protector sFd k fp x)
    (hstep : (process A protector sFd k fp).Step x t y) (hcall : t.call = some op) :
    ∃ m, (coSystem A protector).Step x.machine (.compute t.reg t.bytes) m ∧
      m.usage = x.server.usage k fp ∧ (coSystem A protector).Step m op y.machine := by
  obtain ⟨hrun, -⟩ := h.step hstep
  unfold Turn.ops at hrun
  rw [hcall] at hrun
  cases hrun with
  | @stepL _ _ m _ _ hcompute hrest =>
    cases hrest with
    | stepL hop hend =>
      cases hend
      have heffect := Libaco.step_effect (Libaco.reachable_inv h.machine) hcompute
      exact ⟨m, hcompute, heffect.compute_usage.trans h.usage, hop⟩

/-- A routine that yields is not over. -/
theorem suspended_of_yield (h : Sound sFd x.server) (hinside : x.server.loop = .inside conn co evs)
    (hstep : (process A protector sFd k fp).Step x t y) (hyield : t.call = some .yield) :
    (y.server.usage k fp).Suspended co := by
  have huse := server_uses h hstep.server rfl hstep.call
  have hsound := h
  unfold Sound at hsound
  rw [hinside] at hsound
  obtain ⟨-, -, c, pc, hcur, hrun, -⟩ := hsound
  have hhandle : handleAt k fp x.server.world.heap co =
      some ⟨conn, fp, decide (pc = .ended), k⟩ := handleAt_routine hcur.routine
  rw [hyield] at huse
  generalize y.server.usage k fp = v at huse ⊢
  cases huse
  exact ⟨nofun, _, hhandle, decide_eq_false hrun.ne_ended⟩

/-- A routine that is resumed after `aco_yield` finds the registers that are its own and its stack
as it left them, though all routines run on one share stack, whatever the others have done in
between; the registers that no switch keeps are as the loop has left them. -/
theorem locals_kept {malloc : Malloc} (h : (process A protector sFd k fp).Reachable x)
    (hinside : x.server.loop = .inside conn co evs) (hyield : t.call = some .yield)
    (hstep : (process A protector sFd k fp).Step x t y)
    (hrun : (process A protector sFd k fp).Run y ts z)
    (hts : ∀ t ∈ ts, ∀ malloc, t.call ≠ some (.resume co malloc))
    (hresume : t'.call = some (.resume co malloc))
    (hstep' : (process A protector sFd k fp).Step z t' u) :
    ∃ m, perform A protector x.machine (.compute t.reg t.bytes) = .ok m ∧
      SameContext A m u.machine co ∧
      ∀ off, ¬ A.Private off → u.machine.cpu off = t'.reg off := by
  have hx := linked_reachable h
  have hsusp := suspended_of_yield hx.server hinside hstep hyield
  obtain ⟨m, hcompute, husage, hyields⟩ := hx.run_call hstep hyield
  obtain ⟨hz, ops, hops, hnames⟩ := run_not_names hrun (hx.step hstep).2 hsusp hts
  obtain ⟨m', hcompute', -, hresumes⟩ := hz.run_call hstep' hresume
  have hgtls : m.gtls = .co co := by
    have hrunning := congrArg Usage.running husage
    unfold Server.usage at hrunning
    rw [hinside] at hrunning
    exact Libaco.running_co.mp hrunning
  have hbetween : (coSystem A protector).Run y.machine
      (ops ++ [.compute t'.reg t'.bytes]) m' := hops.append (.stepL hcompute' .refl)
  have hothers : ∀ op ∈ ops ++ [.compute t'.reg t'.bytes], ¬ op.Names co := by
    intro op hop
    rcases List.mem_append.mp hop with hop | hop
    · exact hnames op hop
    · rw [List.mem_singleton.mp hop]
      simp [Op.Names]
  obtain ⟨hsame, hshared⟩ := Libaco.resume_private (hx.machine.step hcompute) hgtls hyields hbetween
    hothers hresumes
  refine ⟨m, hcompute.2, hsame, fun off hoff => ?_⟩
  rw [hshared off hoff, Libaco.lastReg, List.foldl_append]
  rfl

/-- A client is answered, and sends again. -/
theorem locals_kept_again : ∃ (m : Machine) (u : Process),
    (process .x86_64 7 3 0 100).Reachable u ∧ u.server.loop = .inside 1 2 [] ∧
    SameContext .x86_64 m u.machine 2 := by
  let again : Answers := .reads (.error EAGAIN)
  have hs : ∃ w w' w'', (server 3).Reachable ⟨w, .inside 1 2 []⟩ ∧
      w.routine 2 = .ok (1, .yielding) ∧
      Server.Step 3 ⟨w, .inside 1 2 []⟩ (.call again) (.ok ⟨w', .resumed 1 []⟩) ∧
      w'.conn 1 = .ok ⟨5, 2, 0⟩ ∧ w'.routine 2 = .ok (1, .yielded) ∧
      Server.Step 3 ⟨w', .resumed 1 []⟩ .main (.ok ⟨w', .batch []⟩) ∧
      w'.fds.registration 5 = some (some 1) ∧
      Server.Step 3 ⟨w', .batch [⟨5, some 1⟩]⟩ .main (.ok ⟨w'', .inside 1 2 []⟩) := by
    refine ⟨_, _, _, ⟨_, _, start_initial 3,
      .stepL (.wait [⟨3, none⟩] (by decide) (List.forall_mem_singleton.mpr rfl) (by decide)) <|
      .stepL (.acceptable rfl) <|
      .stepL (.accept (.plain (.ok (5, 2))) ?_) <|
      .stepL (.accept (.plain (.error EAGAIN)) ?_) <|
      .stepL .done <|
      .stepL (.wait [⟨5, some 1⟩] (by decide) (List.forall_mem_singleton.mpr rfl) (by decide)) <|
      .stepL (.dispatch (by decide)) <|
      .stepL (.call again (fun _ _ _ _ => rfl)) <|
      .stepL (.call again (fun _ _ _ _ => rfl)) .refl⟩, rfl,
      .call again (fun _ _ _ _ => rfl), rfl, rfl, .reap, rfl, .dispatch (by decide)⟩
    · rintro _ _ ⟨⟩
      rfl
    · rintro _ _ ⟨⟩
  obtain ⟨w, w', w'', hreach, hroutine, hcall, hconn, hroutine', hreap, hreg, hdispatch⟩ := hs
  obtain ⟨m, hm⟩ := setUp_start
  obtain ⟨m₀, hx⟩ := process_covers 100 hm hreach
  obtain ⟨m₁, _, _, hyield, hy⟩ := (linked_reachable hx).goes hcall (.yield hroutine again)
  obtain ⟨m₂, _, _, hkeep, hy₂⟩ := hy.goes hreap (.keep hconn hroutine' (by simp))
  obtain ⟨m₃, _, _, hdone, hy₃⟩ := hy₂.goes .done .done
  obtain ⟨m₄, _, _, hwait, hy₄⟩ := hy₃.goes
    (.wait [⟨5, some 1⟩] (by decide) (List.forall_mem_singleton.mpr hreg) (by decide)) (.kevent _)
  obtain ⟨m₅, _, _, hresume, -⟩ := hy₄.goes hdispatch
    (.resume (by decide) rfl hconn Libaco.sameBlock)
  obtain ⟨m', -, hsame, -⟩ := locals_kept hx rfl rfl hyield
    (.stepL hkeep (.stepL hdone (.stepL hwait .refl))) (by simp) rfl hresume
  have hagain := ((((hx.step hyield).step hkeep).step hdone).step hwait).step hresume
  exact ⟨m', _, hagain, rfl, hsame⟩

end UnixCodes.AcoHttpd
