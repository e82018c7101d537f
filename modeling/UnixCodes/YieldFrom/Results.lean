import Mathlib.Algebra.BigOperators.Group.List.Basic
import Mathlib.Algebra.Field.Rat
import Mathlib.Tactic.NormNum
import UnixCodes.YieldFrom.Model

/-! What `yield_from_exm.py` computes for each key. -/
namespace UnixCodes.YieldFrom

open Program

variable {R K : Type} [DivisionRing R] [DecidableEq R] [DecidableEq K]
  {m : Machine R K} {key : PyObject R K} {sub : SubGen R}

/-- The count and the mean of some numbers. -/
def stats (xs : List R) : ℕ × R := if xs = [] then (0, 0) else (xs.length, xs.sum / xs.length)

/-- The generator after one more number. -/
def SubGen.count1 (s : SubGen R) (v : R) : SubGen R :=
  ⟨s.total + v, s.count + 1, (s.total + v) / (s.count + 1 : ℕ)⟩

omit [DecidableEq R] [DecidableEq K] in
theorem send_number (s : SubGen R) (v : R) :
    s.send (.number v : PyObject R K) = .ok (.yielded (s.count1 v)) := by
  simp only [SubGen.send, truediv, Nat.succ_ne_zero, if_false]
  rfl

omit [DecidableEq R] in
/-- The generator after some numbers. -/
theorem foldl_count1 (s : SubGen R) (xs : List R) :
    (xs.foldl SubGen.count1 s).total = s.total + xs.sum ∧
      (xs.foldl SubGen.count1 s).count = s.count + xs.length ∧
      (xs.foldl SubGen.count1 s).avg =
        if xs = [] then s.avg else (s.total + xs.sum) / (s.count + xs.length : ℕ) := by
  induction xs generalizing s with
  | nil => simp
  | cons x xs ih =>
    obtain ⟨htotal, hcount, havg⟩ := ih (s.count1 x)
    have hsum : (s.count1 x).total + xs.sum = s.total + (x :: xs).sum := by
      rw [List.sum_cons, ← add_assoc]
      rfl
    have hlen : (s.count1 x).count + xs.length = s.count + (x :: xs).length := by
      simp only [SubGen.count1, List.length_cons]
      omega
    rw [List.foldl_cons, htotal, hcount, havg, hsum, hlen, if_neg (List.cons_ne_nil x xs)]
    refine ⟨rfl, rfl, ?_⟩
    split
    · rename_i hnil
      subst hnil
      simp [SubGen.count1]
    · rfl

omit [DecidableEq R] in
theorem stats_eq (xs : List R) :
    ((xs.foldl SubGen.count1 .start).count, (xs.foldl SubGen.count1 .start).avg) = stats xs := by
  obtain ⟨-, hcount, havg⟩ := foldl_count1 SubGen.start xs
  rw [hcount, havg]
  simp only [SubGen.start, stats, zero_add]
  split
  · rename_i hnil
    rw [hnil]
    rfl
  · rfl

/-- At `key = yield` what is sent becomes the key of a new group. -/
theorem send_key (hg : m.group = .waiting) (hkey : key ≠ .ellipsis) :
    Returns (send key) m ()
      { m with group := .delegating key .start, received := m.received ++ [.key key] } := by
  refine returns_get.bind ?_
  simp only [hg, hkey, if_false]
  exact returns_set

/-- Below `yield from` a number is counted for the key of the group. -/
theorem send_value (hg : m.group = .delegating key sub) (v : R) :
    Returns (send (.number v)) m ()
      { m with
        group := .delegating key (sub.count1 v)
        received := m.received ++ [.counted key (.number v)] } := by
  refine returns_get.bind ?_
  simp only [hg, send_number]
  exact returns_set

/-- `None` ends the group. -/
theorem send_none (hg : m.group = .delegating key sub) :
    Returns (send .none) m ()
      { m with group := .waiting, results := m.results.insert key (sub.count, sub.avg) } := by
  refine returns_get.bind ?_
  simp only [hg, SubGen.send]
  exact returns_set

/-- `Ellipsis` in the place of a key ends the grouper. -/
theorem send_ellipsis (hg : m.group = .waiting) :
    Raises (send .ellipsis) m (.stopIteration (some "done")) { m with group := .closed } := by
  refine returns_get.bind_raises ?_
  simp only [hg, if_true]
  exact returns_set.bind_raises raises_throw

/-- All numbers of a list are counted for the key of the group that is open. -/
theorem send_values (hg : m.group = .delegating key sub) (xs : List R) :
    Returns ((xs.map PyObject.number).forM send) m ()
      { m with
        group := .delegating key (xs.foldl SubGen.count1 sub)
        received := m.received ++ xs.map fun x => .counted key (.number x) } := by
  induction xs generalizing m sub with
  | nil =>
    simp only [List.map_nil, List.foldl_nil, List.append_nil, ← hg]
    exact rfl
  | cons x xs ih =>
    have hrest := ih (m := { m with
      group := .delegating key (sub.count1 x)
      received := m.received ++ [.counted key (.number x)] }) rfl
    simp only [List.append_assoc, List.singleton_append] at hrest
    exact (send_value hg x).bind hrest

/-- The numbers of a list of objects. -/
def numbers (values : List (PyObject R K)) : List R :=
  values.filterMap fun v => match v with
    | .number r => some r
    | _ => none

omit [DivisionRing R] [DecidableEq R] [DecidableEq K] in
theorem numbers_map (xs : List R) : numbers (xs.map (PyObject.number (K := K))) = xs := by
  rw [numbers, List.filterMap_map]
  exact List.filterMap_some

/-- The entries of the dict of `main`. -/
abbrev Item (R K : Type) : Type := (_ : PyObject R K) × List (PyObject R K)

/-- A turn of the loop over the dict, as one step. -/
def Machine.item (m : Machine R K) (e : Item R K) : Machine R K :=
  { m with
    results := m.results.insert e.1 (stats (numbers e.2))
    received := m.received ++ (.key e.1 :: e.2.map (.counted e.1)) }

/-- The key is not `Ellipsis`, and the values are numbers. -/
def Wellformed (e : Item R K) : Prop := e.1 ≠ .ellipsis ∧ ∃ xs : List R, e.2 = xs.map .number

theorem send_item {e : Item R K} (hg : m.group = .waiting) (he : Wellformed e) :
    Returns (sendItem e.1 e.2) m () (m.item e) := by
  obtain ⟨key, values⟩ := e
  obtain ⟨hkey, xs, rfl⟩ := he
  have hsend := send_key hg hkey
  have hvalues := send_values (m := { m with
    group := .delegating key .start, received := m.received ++ [.key key] }) rfl xs
  have hnone := send_none (m := { m with
    group := .delegating key (xs.foldl SubGen.count1 .start)
    received := m.received ++ [.key key] ++ xs.map fun x => .counted key (.number x) }) rfl
  have hend : Returns (sendItem key (xs.map .number)) m () _ := hsend.bind (hvalues.bind hnone)
  simp only [stats_eq, List.append_assoc, List.singleton_append] at hend
  simp only [Machine.item, numbers_map, List.map_map, hg]
  exact hend

variable {es : List (Item R K)}

theorem received_foldl (es : List (Item R K)) :
    (es.foldl Machine.item m).received =
      m.received ++ es.flatMap fun e => .key e.1 :: e.2.map (.counted e.1) := by
  induction es generalizing m with
  | nil => simp
  | cons e es ih => rw [List.foldl_cons, ih, List.flatMap_cons, ← List.append_assoc, Machine.item]

/-- Each key is inserted once, with the numbers that belong to it. -/
theorem lookup_foldl (hes : es.NodupKeys) (k : PyObject R K) :
    (es.foldl Machine.item m).results.lookup k =
      match es.dlookup k with
      | some values => some (stats (numbers values))
      | none => m.results.lookup k := by
  induction es generalizing m with
  | nil => rfl
  | cons e es ih =>
    obtain ⟨hnot, hes⟩ := List.nodupKeys_cons.mp hes
    rw [List.foldl_cons, ih hes]
    by_cases he : k = e.1
    · subst he
      rw [List.dlookup_eq_none.mpr hnot]
      obtain ⟨key, values⟩ := e
      rw [List.dlookup_cons_eq]
      exact AList.lookup_insert _
    · rw [List.dlookup_cons_ne _ _ he]
      split
      · rfl
      · exact AList.lookup_insert_ne he

/-- For a dict of lists of numbers the program ends without an exception, with the grouper closed,
and has computed count and mean for each key; every object has been taken in its own place. -/
theorem main_results (data : AList fun _ : PyObject R K => List (PyObject R K))
    (hkeys : ∀ k ∈ data, k ≠ .ellipsis)
    (hvalues : ∀ k values, data.lookup k = some values → ∃ xs : List R, values = xs.map .number)
    (m₀ : Machine R K) :
    ∃ m, Returns (main data) m₀ () m ∧ m.group = .closed ∧
      (∀ k, k ∈ m.results ↔ k ∈ data) ∧
      (∀ k xs, data.lookup k = some (xs.map .number) → m.results.lookup k = some (stats xs)) ∧
      m.received = data.entries.flatMap fun e => .key e.1 :: e.2.map (.counted e.1) := by
  have hitems : ∀ e ∈ data.entries, Wellformed e := by
    intro e he
    refine ⟨hkeys e.1 (AList.mem_keys.mpr (List.mem_keys_of_mem he)), ?_⟩
    exact hvalues e.1 e.2 (AList.mem_lookup_iff.mpr he)
  let m₁ : Machine R K := { group := .waiting, results := ∅, received := [] }
  have hprime : Returns corowrap { m₀ with results := ∅, received := [] } () m₁ := by
    refine returns_modify.bind (returns_get.bind ?_)
    exact returns_set
  obtain ⟨hloop, hwaiting⟩ := returns_forM (s := m₁) Machine.item (fun m => m.group = .waiting)
    (fun e he m hg => ⟨send_item hg (hitems e he), hg⟩) rfl
  have hlookup (k : PyObject R K) : (data.entries.foldl Machine.item m₁).results.lookup k =
      (data.lookup k).map fun values => stats (numbers values) := by
    have hentries : data.lookup k = data.entries.dlookup k := rfl
    rw [lookup_foldl data.nodupKeys k, hentries]
    cases data.entries.dlookup k <;> rfl
  let closed : Machine R K := { data.entries.foldl Machine.item m₁ with group := .closed }
  refine ⟨closed, ?_, rfl, ?_, ?_, ?_⟩
  · refine returns_modify.bind (hprime.bind (hloop.bind ?_))
    refine Returns.bind (a := ()) (t := closed) ?_ returns_modify
    exact (send_ellipsis hwaiting).catch rfl
  · intro k
    rw [← AList.lookup_isSome, ← AList.lookup_isSome, hlookup, Option.isSome_map]
  · intro k xs hk
    rw [hlookup, hk, Option.map_some, numbers_map]
  · exact received_foldl data.entries

/-- The dict of the program itself. -/
def kg : AList fun _ : PyObject ℚ String => List (PyObject ℚ String) :=
  AList.singleton (PyObject.other "kg") ([1, 2, 3, 4, 5].map PyObject.number)

/-- The same with a second key, for which there are no numbers. -/
def kgM : AList fun _ : PyObject ℚ String => List (PyObject ℚ String) := kg.insert (.other "m") []

theorem lookup_kgM (k : PyObject ℚ String) (values : List (PyObject ℚ String))
    (h : kgM.lookup k = some values) : k = .other "m" ∧ values = ([] : List ℚ).map .number ∨
      k = .other "kg" ∧ values = ([1, 2, 3, 4, 5] : List ℚ).map .number := by
  rcases eq_or_ne k (.other "m") with rfl | hm
  · rw [kgM, AList.lookup_insert] at h
    exact .inl ⟨rfl, (Option.some.inj h).symm⟩
  · rw [kgM, AList.lookup_insert_ne hm] at h
    have hk : k ∈ kg := AList.lookup_isSome.mp (Option.isSome_of_eq_some h)
    obtain rfl : k = .other "kg" := by simpa [kg] using AList.mem_keys.mp hk
    exact .inr ⟨rfl, (Option.some.inj h).symm⟩

theorem main_results_kgM :
    ∃ m : Machine ℚ String, Returns (main kgM) ⟨.created, ∅, []⟩ () m ∧ m.group = .closed ∧
      m.results.lookup (.other "kg") = some (5, 3) ∧
      m.results.lookup (.other "m") = some (0, 0) := by
  have hvalues (k values) (hk : kgM.lookup k = some values) :
      ∃ xs : List ℚ, values = xs.map .number := by
    rcases lookup_kgM k values hk with ⟨-, hnil⟩ | ⟨-, hkg⟩
    · exact ⟨_, hnil⟩
    · exact ⟨_, hkg⟩
  have hkeys : ∀ k ∈ kgM, k ≠ .ellipsis := by
    intro k hk
    obtain ⟨values, hlookup⟩ := Option.isSome_iff_exists.mp (AList.lookup_isSome.mpr hk)
    rcases lookup_kgM k values hlookup with ⟨rfl, -⟩ | ⟨rfl, -⟩ <;> simp
  obtain ⟨m, hmain, hclosed, -, hresults, -⟩ := main_results kgM hkeys hvalues ⟨.created, ∅, []⟩
  have hstats : stats ([1, 2, 3, 4, 5] : List ℚ) = (5, 3) := by
    rw [stats, if_neg (List.cons_ne_nil _ _)]
    norm_num
  refine ⟨m, hmain, hclosed, ?_, hresults _ [] rfl⟩
  rw [hresults _ [1, 2, 3, 4, 5] rfl, hstats]

end UnixCodes.YieldFrom
