import UnixCodes.Duc.Model
import UnixCodes.Lib.Outcome

/-! The paths that `caculate_dir` of `duc.c` puts together. -/
namespace UnixCodes.Duc

variable {callee : Buffer → Counts → Except Fault Counts} {c c' : Call} {b b' filePath : Buffer}
  {s t : List UInt8} {name : CStr} {e : Entry} {a : Answers} {counts counts' : Counts}
  {listing : List (Entry × Answers)} {memory : Bool} {n : ℕ}

theorem string_eq_ok : b.string = .ok s ↔ cString b.bytes = some s := by
  unfold Buffer.string
  cases cString b.bytes <;> simp

theorem string_of_bytes {rest : List UInt8} (hs : 0 ∉ s) (hb : b.bytes = s ++ 0 :: rest) :
    b.string = .ok s := by
  rw [string_eq_ok, hb]
  exact cString_append hs

theorem strlen_of_string (h : b.string = .ok s) : strlen b = .ok s.length := by
  rw [strlen, h]
  rfl

/-- A buffer that a string and its NUL begin is the string with the other one behind it. -/
theorem strcat_of_bytes {rest : List UInt8} (hs : 0 ∉ s) (hb : b.bytes = s ++ 0 :: rest) :
    strcat (some b) t = .ok ⟨b.capacity, s ++ t ++ 0 :: rest.drop t.length⟩ := by
  have hbytes : overwrite b.bytes s.length (t ++ [0]) = s ++ t ++ 0 :: rest.drop t.length := by
    have hdrop : s.length + (t.length + 1) = (s ++ [0]).length + t.length := by
      simp only [List.length_append, List.length_singleton]
      omega
    have hb' : s ++ 0 :: rest = (s ++ [0]) ++ rest := by simp
    rw [overwrite, hb, List.take_left', List.length_append, List.length_singleton, hdrop, hb',
      List.drop_append]
    · simp
    · rfl
  simp only [strcat, strlen_of_string (string_of_bytes hs hb), bind, Except.bind, pure, Except.pure,
    hbytes]

/-- The slash takes the place of the NUL, for which alone `strdup` has left room. -/
theorem not_fits_slash (hs : 0 ∉ s) : ¬ Buffer.Fits ⟨s.length + 1, s ++ [slash] ++ [0]⟩ := by
  rintro ⟨s', hstring, hle⟩
  have hslash : 0 ∉ s ++ [slash] := by
    rw [List.mem_append, not_or]
    exact ⟨hs, by decide⟩
  have hs' := Except.ok.inj (hstring.symm.trans (string_of_bytes hslash rfl))
  subst hs'
  rw [List.length_append, List.length_singleton] at hle
  exact absurd hle (Nat.not_succ_le_self _)

theorem descend_written
    (h : descend callee c filePath name memory counts = .ok (c', counts')) :
    ∃ newp newp', ¬ newp.Fits ∧
      c' = ⟨some filePath, c.written ++ [newp, newp'], c.received ++ [newp']⟩ := by
  obtain ⟨dup, hdup, h⟩ := bind_eq_ok h
  obtain ⟨newp, hnewp, h⟩ := bind_eq_ok h
  obtain ⟨newp', -, h⟩ := bind_eq_ok h
  obtain ⟨counts₁, -, h⟩ := bind_eq_ok h
  obtain ⟨s, hs, hdup⟩ := bind_eq_ok hdup
  cases h
  refine ⟨newp, newp', ?_, rfl⟩
  cases hdup
  cases memory with
  | false => cases hnewp
  | true =>
    have hnul : 0 ∉ s := notMem_of_cString (string_eq_ok.mp hs)
    have hcat := strcat_of_bytes (b := .exact s) (t := [slash]) hnul rfl
    obtain rfl := Except.ok.inj (hnewp.symm.trans hcat)
    exact not_fits_slash hnul

/-- The path has been lost, or a `strcat` has written past its buffer. -/
def Call.Broken (c : Call) : Prop := c.filePath = none ∨ ∃ b ∈ c.written, ¬ b.Fits

theorem subdirectory_broken
    (h : subdirectory callee c name a counts = .ok (c', counts')) : c'.Broken := by
  unfold subdirectory at h
  split at h
  · cases h
  · obtain ⟨n, -, h⟩ := bind_eq_ok h
    have hdescend {filePath : Buffer}
        (h : descend callee c filePath name a.strdup counts = .ok (c', counts')) : c'.Broken := by
      obtain ⟨newp, newp', hfits, rfl⟩ := descend_written h
      exact .inr ⟨newp, by simp, hfits⟩
    split at h
    · split at h
      · exact hdescend h
      · cases h
        exact .inl rfl
    · exact hdescend h

theorem entry_of_not_subdirectory (he : ¬ e.Subdirectory) :
    entry callee c e a counts = .ok (c, DirCount.count counts e.type) := if_neg he

theorem entry_of_subdirectory (he : e.Subdirectory) : entry callee c e a counts =
    subdirectory callee c e.name a (DirCount.count counts e.type) := if_pos he

theorem entries_broken (h : entries callee listing c counts = .ok (c', counts'))
    (hc : c.Broken ∨ ∃ x ∈ listing, x.1.Subdirectory) : c'.Broken := by
  induction listing generalizing c counts with
  | nil =>
    cases h
    rcases hc with hc | ⟨x, hx, -⟩
    · exact hc
    · cases hx
  | cons x rest ih =>
    obtain ⟨e, a⟩ := x
    obtain ⟨⟨c₁, counts₁⟩, hentry, hrest⟩ := bind_eq_ok h
    apply ih hrest
    by_cases he : e.Subdirectory
    · rw [entry_of_subdirectory he] at hentry
      exact .inl (subdirectory_broken hentry)
    · rw [entry_of_not_subdirectory he] at hentry
      cases hentry
      rcases hc with hc | ⟨x, hx, hsub⟩
      · exact .inl hc
      · rcases List.mem_cons.mp hx with rfl | hx
        · exact absurd hsub he
        · exact .inr ⟨x, hx, hsub⟩

/-- The names that recursive calls are made for. -/
def subdirectories (listing : List (Entry × Answers)) : List (List UInt8) :=
  (listing.filter fun x => x.1.Subdirectory).map fun x => x.1.name.bytes

/-- The recursive calls have been given the paths of the subdirectories. -/
def Call.Passes (c : Call) (path : CStr) (names : List (List UInt8)) : Prop :=
  c.received.map Buffer.string = names.map fun name => .ok (path.bytes ++ slash :: name)

def Call.Keeps (c : Call) (path : CStr) : Prop :=
  ∃ b, c.filePath = some b ∧ b.string = .ok path.bytes

/-- The entries have been gone through with the right paths, every `strcat` has stayed within its
buffer, and `file_path` is what it was. -/
def Correct (path : CStr) (listing : List (Entry × Answers))
    (r : Except Fault (Call × Counts)) : Prop :=
  ∃ c counts, r = .ok (c, counts) ∧ c.Passes path (subdirectories listing) ∧
    (∀ b ∈ c.written, b.Fits) ∧ c.Keeps path

theorem entries_of_no_subdirectory (h : ∀ x ∈ listing, ¬ x.1.Subdirectory) (counts : Counts) :
    entries callee listing c counts =
      .ok (c, listing.foldl (fun counts x => DirCount.count counts x.1.type) counts) := by
  induction listing generalizing counts with
  | nil => rfl
  | cons x rest ih =>
    obtain ⟨e, a⟩ := x
    rw [List.forall_mem_cons] at h
    rw [entries, entry_of_not_subdirectory h.1]
    exact ih h.2 (DirCount.count counts e.type)

theorem correct_of_no_subdirectory {path : CStr} (h : ∀ x ∈ listing, ¬ x.1.Subdirectory) :
    Correct path listing (entries callee listing (.start (.exact path.bytes)) counts) := by
  have hnames : subdirectories listing = [] := by
    rw [subdirectories, List.map_eq_nil_iff, List.filter_eq_nil_iff]
    simpa using h
  refine ⟨_, _, entries_of_no_subdirectory h counts, ?_, ?_, _, rfl, string_of_bytes path.noNul rfl⟩
  · rw [hnames]
    rfl
  · intro b hb
    cases hb

theorem not_correct_of_subdirectory {path : CStr} (h : ∃ x ∈ listing, x.1.Subdirectory) :
    ¬ Correct path listing (entries callee listing (.start (.exact path.bytes)) counts) := by
  rintro ⟨c, counts', hrun, -, hfits, b, hpath, -⟩
  rcases entries_broken hrun (.inr h) with hnone | ⟨b, hb, hover⟩
  · cases hpath.symm.trans hnone
  · exact hover (hfits b hb)

/-- However the calls for the subdirectories go, all is well behind each entry if and only if no
entry is a subdirectory. -/
theorem correct_iff_no_subdirectory (callee : Buffer → Counts → Except Fault Counts) (path : CStr)
    (listing : List (Entry × Answers)) (counts : Counts) :
    (∀ before, before <+: listing →
      Correct path before (entries callee before (.start (.exact path.bytes)) counts)) ↔
    ∀ x ∈ listing, ¬ x.1.Subdirectory := by
  constructor
  · intro hcorrect x hx hsub
    exact not_correct_of_subdirectory ⟨x, hx, hsub⟩ (hcorrect listing (List.prefix_refl _))
  · intro hnone before hbefore
    exact correct_of_no_subdirectory fun x hx => hnone x (hbefore.subset hx)

/-- A subdirectory `b` of `a`, with memory for its path: the slash and the name do not fit. -/
theorem strcat_overflows :
    ¬ ∀ (callee : Buffer → Counts → Except Fault Counts) (path : CStr)
      (listing : List (Entry × Answers)) (counts : Counts), (∀ x ∈ listing, x.2 = ⟨true, true⟩) →
      Correct path listing (entries callee listing (.start (.exact path.bytes)) counts) := by
  intro hall
  let path : CStr := ⟨[97], by decide⟩
  let e : Entry := ⟨⟨[98], by decide⟩, .dir⟩
  have hsub : ∃ x ∈ [(e, Answers.mk true true)], x.1.Subdirectory :=
    ⟨_, List.mem_cons_self, by decide⟩
  apply not_correct_of_subdirectory hsub
  apply hall (fun _ counts => .ok counts) path _ 0
  intro x hx
  obtain rfl := List.mem_singleton.mp hx
  rfl

/-! What the recursive calls are given if the bytes past the buffers are nobody else's. -/
section Kept

variable {path : CStr}

/-- The path and its NUL are in what has been allocated. -/
def Buffer.Kept (path : CStr) (b : Buffer) : Prop :=
  b.bytes = path.bytes ++ [0] ∧ path.bytes.length + 1 ≤ b.capacity

/-- The difference wraps around for a path of more than eight bytes. -/
theorem tooSmall_iff {path name : ℕ} (h : path + name < 2 ^ 64) :
    TooSmall path name ↔ path ≤ 8 ∧ 8 < path + name := by
  have hsize : (8 : UInt64).toNat = 8 := rfl
  rw [TooSmall, UInt64.lt_iff_toNat_lt, UInt64.toNat_sub, UInt64.toNat_ofNat', UInt64.toNat_ofNat',
    hsize]
  omega

theorem Buffer.Kept.string (h : b.Kept path) : b.string = .ok path.bytes :=
  string_of_bytes path.noNul h.1

theorem Buffer.Kept.realloc (h : b.Kept path) (hlength : path.bytes.length < 8) :
    (b.realloc 8).Kept path := by
  obtain ⟨hbytes, hcapacity⟩ := h
  refine ⟨?_, hlength⟩
  rw [Buffer.realloc, hbytes]
  apply List.take_of_length_le
  rw [List.length_append, List.length_singleton]
  omega

theorem strdup_of_string (h : b.string = .ok s) : strdup b true = .ok (some (.exact s)) := by
  rw [strdup, h]
  rfl

theorem descend_of_kept (hb : b.Kept path)
    (hcallee : ∀ b counts, ∃ counts', callee b counts = .ok counts') :
    ∃ written newp counts', descend callee c b name true counts =
        .ok (⟨some b, written, c.received ++ [newp]⟩, counts') ∧
      newp.string = .ok (path.bytes ++ slash :: name.bytes) := by
  have hslash : 0 ∉ path.bytes ++ [slash] := by
    rw [List.mem_append, not_or]
    exact ⟨path.noNul, by decide⟩
  have hname : 0 ∉ path.bytes ++ [slash] ++ name.bytes := by
    rw [List.mem_append, not_or]
    exact ⟨hslash, name.noNul⟩
  let newp : Buffer := ⟨path.bytes.length + 1, path.bytes ++ [slash] ++ [0]⟩
  let newp' : Buffer := ⟨path.bytes.length + 1, path.bytes ++ [slash] ++ name.bytes ++ [0]⟩
  have hcat : strcat (some (.exact path.bytes)) [slash] = .ok newp :=
    strcat_of_bytes (b := .exact path.bytes) path.noNul rfl
  have hcat' : strcat (some newp) name.bytes = .ok newp' := by
    rw [strcat_of_bytes (b := newp) hslash rfl, List.drop_nil]
  obtain ⟨counts', hcounts⟩ := hcallee newp' counts
  refine ⟨c.written ++ [newp, newp'], newp', counts', ?_, ?_⟩
  · simp only [descend, strdup_of_string hb.string, hcat, hcat', hcounts, bind, Except.bind, pure,
      Except.pure]
  · simpa using string_of_bytes hname (b := newp') rfl

/-- The call for the subdirectory gets its path, and the path of the directory is kept. -/
theorem subdirectory_of_kept (counts : Counts) (hlength : path.bytes.length ≠ 8)
    (hc : c.filePath = some b)
    (hb : b.Kept path) (hsize : path.bytes.length + name.bytes.length < 2 ^ 64)
    (hrealloc : a.realloc = true) (hstrdup : a.strdup = true)
    (hcallee : ∀ b counts, ∃ counts', callee b counts = .ok counts') :
    ∃ c' counts', subdirectory callee c name a counts = .ok (c', counts') ∧
      (∃ b', c'.filePath = some b' ∧ b'.Kept path) ∧ c'.received.map Buffer.string =
        c.received.map Buffer.string ++ [.ok (path.bytes ++ slash :: name.bytes)] := by
  have hdescend {b' : Buffer} (hb' : b'.Kept path) : ∃ c' counts',
      descend callee c b' name a.strdup counts = .ok (c', counts') ∧
      (∃ b', c'.filePath = some b' ∧ b'.Kept path) ∧ c'.received.map Buffer.string =
        c.received.map Buffer.string ++ [.ok (path.bytes ++ slash :: name.bytes)] := by
    obtain ⟨written, newp, counts', hrun, hnewp⟩ := descend_of_kept hb' hcallee
    rw [hstrdup]
    refine ⟨_, counts', hrun, ⟨b', rfl, hb'⟩, ?_⟩
    rw [List.map_append, List.map_singleton, hnewp]
  unfold subdirectory
  simp only [hc, strlen_of_string hb.string, bind, Except.bind, hrealloc, if_true]
  split
  · rename_i hsmall
    rw [tooSmall_iff hsize] at hsmall
    exact hdescend (hb.realloc (by omega))
  · exact hdescend hb

/-- Eight bytes are what `realloc` leaves, without the NUL. -/
theorem subdirectory_of_eight (hlength : path.bytes.length = 8)
    (hc : c.filePath = some (.exact path.bytes)) (hne : name.bytes ≠ [])
    (hsize : path.bytes.length + name.bytes.length < 2 ^ 64) (hrealloc : a.realloc = true) :
    subdirectory callee c name a counts = .error .unterminated := by
  have hpos : 0 < name.bytes.length := List.length_pos_of_ne_nil hne
  have hsmall : TooSmall path.bytes.length name.bytes.length := by
    rw [tooSmall_iff hsize]
    omega
  have hstring : (Buffer.exact path.bytes).string = .ok path.bytes :=
    string_of_bytes path.noNul rfl
  have htaken : ((Buffer.exact path.bytes).realloc 8).bytes = path.bytes := by
    simp only [Buffer.exact, Buffer.realloc]
    apply List.take_left'
    omega
  have hcut : ((Buffer.exact path.bytes).realloc 8).string = .error .unterminated := by
    rw [Buffer.string, htaken, cString_eq_none path.noNul]
  unfold subdirectory
  simp only [hc, strlen_of_string hstring, bind, Except.bind, hrealloc, if_true, if_pos hsmall,
    descend, strdup, hcut]

/-- There is memory for the entry, and it has a name. -/
structure Usual (path : CStr) (x : Entry × Answers) : Prop where
  realloc : x.2.realloc = true
  strdup : x.2.strdup = true
  named : x.1.name.bytes ≠ []
  size : path.bytes.length + x.1.name.bytes.length < 2 ^ 64

theorem entries_of_kept (counts : Counts) (hlength : path.bytes.length ≠ 8)
    (hc : c.filePath = some b) (hb : b.Kept path) (husual : ∀ x ∈ listing, Usual path x)
    (hcallee : ∀ b counts, ∃ counts', callee b counts = .ok counts') :
    ∃ c' counts', entries callee listing c counts = .ok (c', counts') ∧
      (∃ b', c'.filePath = some b' ∧ b'.Kept path) ∧ c'.received.map Buffer.string =
        c.received.map Buffer.string ++
          (subdirectories listing).map fun name => .ok (path.bytes ++ slash :: name) := by
  induction listing generalizing c b counts with
  | nil => exact ⟨c, counts, rfl, ⟨b, hc, hb⟩, by simp [subdirectories]⟩
  | cons x rest ih =>
    obtain ⟨e, a⟩ := x
    rw [List.forall_mem_cons] at husual
    obtain ⟨hx, hrest⟩ := husual
    by_cases he : e.Subdirectory
    · obtain ⟨c₁, counts₁, hstep, ⟨b₁, hc₁, hb₁⟩, hreceived₁⟩ :=
        subdirectory_of_kept (DirCount.count counts e.type) hlength hc hb hx.size hx.realloc
          hx.strdup hcallee
      obtain ⟨c', counts', hrun, hkept, hreceived⟩ := ih counts₁ hc₁ hb₁ hrest
      refine ⟨c', counts', ?_, hkept, ?_⟩
      · rw [entries, entry_of_subdirectory he, hstep]
        exact hrun
      · rw [hreceived, hreceived₁]
        simp [subdirectories, he]
    · obtain ⟨c', counts', hrun, hkept, hreceived⟩ :=
        ih (DirCount.count counts e.type) hc hb hrest
      refine ⟨c', counts', ?_, hkept, ?_⟩
      · rw [entries, entry_of_not_subdirectory he]
        exact hrun
      · rw [hreceived]
        simp [subdirectories, he]

theorem entries_of_eight (hlength : path.bytes.length = 8)
    (hc : c.filePath = some (.exact path.bytes)) (husual : ∀ x ∈ listing, Usual path x)
    (hsub : ∃ x ∈ listing, x.1.Subdirectory) :
    entries callee listing c counts = .error .unterminated := by
  induction listing generalizing counts with
  | nil => simp at hsub
  | cons x rest ih =>
    obtain ⟨e, a⟩ := x
    rw [List.forall_mem_cons] at husual
    obtain ⟨hx, hrest⟩ := husual
    by_cases he : e.Subdirectory
    · have hstep : subdirectory callee c e.name a (DirCount.count counts e.type) =
          .error .unterminated :=
        subdirectory_of_eight hlength hc hx.named hx.size hx.realloc
      rw [entries, entry_of_subdirectory he, hstep]
      rfl
    · rw [entries, entry_of_not_subdirectory he]
      apply ih hrest
      simpa [he] using hsub

/-- As long as there is memory the paths are right if and only if the length of the path is not
eight, or nothing is done with it. -/
theorem paths_right_iff (path : CStr) (husual : ∀ x ∈ listing, Usual path x)
    (hcallee : ∀ b counts, ∃ counts', callee b counts = .ok counts') :
    (∃ c counts', entries callee listing (.start (.exact path.bytes)) counts = .ok (c, counts') ∧
      c.Passes path (subdirectories listing) ∧ c.Keeps path) ↔
    path.bytes.length ≠ 8 ∨ ∀ x ∈ listing, ¬ x.1.Subdirectory := by
  have hkept : (Buffer.exact path.bytes).Kept path := ⟨rfl, le_rfl⟩
  constructor
  · rintro ⟨c, counts', hrun, -⟩
    by_contra hnot
    push Not at hnot
    have herror : entries callee listing (.start (.exact path.bytes)) counts =
        .error .unterminated := entries_of_eight hnot.1 rfl husual hnot.2
    cases hrun.symm.trans herror
  · rintro (hlength | hnone)
    · obtain ⟨c, counts', hrun, ⟨b, hc, hb⟩, hreceived⟩ :=
        entries_of_kept (c := .start (.exact path.bytes)) counts hlength rfl hkept husual hcallee
      exact ⟨c, counts', hrun, hreceived, b, hc, hb.string⟩
    · have hcorrect : Correct path listing
          (entries callee listing (.start (.exact path.bytes)) counts) :=
        correct_of_no_subdirectory hnone
      obtain ⟨c, counts', hrun, hpasses, -, hkeeps⟩ := hcorrect
      exact ⟨c, counts', hrun, hpasses, hkeeps⟩

/-- Where the path of a directory that can be opened has eight bytes, the program does not come past
the first subdirectory in it; without a subdirectory it only counts. -/
theorem caculateDir_exact (fs : FileSystem) (depth : ℕ) (path : CStr)
    (hopen : fs path.bytes = some listing) :
    ((∀ x ∈ listing, ¬ x.1.Subdirectory) → caculateDir fs (depth + 1) (.exact path.bytes) counts =
      .ok (listing.foldl (fun counts x => DirCount.count counts x.1.type) counts)) ∧
    (path.bytes.length = 8 → (∀ x ∈ listing, Usual path x) → (∃ x ∈ listing, x.1.Subdirectory) →
      caculateDir fs (depth + 1) (.exact path.bytes) counts = .error .unterminated) := by
  have hcall : caculateDir fs (depth + 1) (.exact path.bytes) counts =
      (entries (caculateDir fs depth) listing (.start (.exact path.bytes)) counts).map
        Prod.snd := by
    have hpath : (Buffer.exact path.bytes).string = .ok path.bytes :=
      string_of_bytes path.noNul rfl
    rw [caculateDir, hpath]
    simp only [bind, Except.bind, hopen, pure, Except.pure]
    cases entries (caculateDir fs depth) listing (.start (.exact path.bytes)) counts <;> rfl
  constructor
  · intro hnone
    rw [hcall, entries_of_no_subdirectory hnone]
    rfl
  · intro hlength husual hsub
    rw [hcall, entries_of_eight hlength rfl husual hsub]
    rfl

end Kept

end UnixCodes.Duc
