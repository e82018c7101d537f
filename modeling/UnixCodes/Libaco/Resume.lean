import UnixCodes.Libaco.Model

/-! What the parts of `aco_resume` do where their assertions hold. -/
namespace UnixCodes.Libaco

variable {A : Arch} {protector : ℕ} {stk : ShareStack} {save : SaveStack} {blk : Block}
  {co owner : Aco} {malloc : Malloc} {k c sp : ℕ}

/-- The valid part of a share stack lies in its memory, below the word that holds the protector. -/
structure ShareStack.Room (A : Arch) (stk : ShareStack) : Prop where
  ptr_lt : stk.ptr < stk.low
  low_le : stk.low ≤ stk.alignRetptr
  ret_le : stk.alignRetptr + A.word ≤ stk.ptr + stk.sz
  span : stk.alignRetptr - stk.low ≤ stk.alignLimit - A.word

theorem ShareStack.Laid.inside (h : stk.Laid A protector) : stk.Room A := by
  have hword := word_cases A
  have hgap := retGap_cases A
  have hlow : stk.low = stk.alignHighptr - stk.alignLimit := rfl
  obtain ⟨hroom, hlarge, -, hle, hlt, hret, hlimit, -⟩ := h
  constructor <;> omega

theorem deref_some {α : Type} (a : α) : deref (some a) = .ok a := rfl

theorem inBounds_pos {q : Prop} [Decidable q] (h : q) : inBounds q = .ok () := if_pos h

theorem copy_eq_memcpy (A : Arch) (dst : Bytes) (d : ℕ) (src : Bytes) (s sz : ℕ) :
    A.copy dst d src s sz = memcpy dst d src s sz := by
  unfold Arch.copy
  split
  · exact optimizedMemcpyDropIn_eq_memcpy ..
  · rfl

/-- Doubling ends before it overflows. -/
theorem growSz_ok {fuel sz validSz : ℕ} (hlt : sz < validSz) (hmax : 2 * validSz ≤ A.size)
    (hfuel : validSz ≤ sz * 2 ^ fuel) :
    ∃ sz', growSz A fuel sz validSz = .ok sz' ∧ validSz ≤ sz' ∧ sz' < 2 * validSz := by
  induction fuel generalizing sz with
  | zero => omega
  | succ fuel ih =>
    have hpos : 0 < sz := by
      by_contra hzero
      rw [Nat.eq_zero_of_not_pos hzero, Nat.zero_mul] at hfuel
      omega
    have hdouble : (sz <<< 1) % A.size = 2 * sz := by
      rw [Nat.shiftLeft_eq, Nat.mod_eq_of_lt (by omega)]
      omega
    simp only [growSz, hdouble]
    rw [acoAssert_pos (by omega), ok_bind]
    by_cases henough : 2 * sz ≥ validSz
    · rw [if_pos henough]
      exact ⟨_, rfl, henough, by omega⟩
    · rw [if_neg henough]
      apply ih (by omega)
      calc validSz ≤ sz * 2 ^ (fuel + 1) := hfuel
        _ = 2 * sz * 2 ^ fuel := by rw [Nat.pow_succ]; ac_rfl

/-- The block of a save stack is as large as it says. -/
structure SaveStack.Ready (save : SaveStack) (blk : Block) : Prop where
  ptr : save.ptr = some blk
  sz : blk.sz = save.sz
  pos : 0 < save.sz

theorem grow_ok (A : Arch) (malloc : Malloc) (save : SaveStack) (h : save.Ready blk)
    (hmax : 2 * save.validSz ≤ A.size) :
    ∃ ptr sz blk', save.grow A malloc = .ok { save with ptr := ptr, sz := sz } ∧
      ({ save with ptr := ptr, sz := sz } : SaveStack).Ready blk' ∧ save.validSz ≤ sz := by
  unfold SaveStack.grow
  by_cases hlt : save.sz < save.validSz
  · have hfuel : save.validSz ≤ save.sz * 2 ^ A.bits :=
      calc save.validSz ≤ 1 * A.size := by omega
        _ ≤ save.sz * A.size := Nat.mul_le_mul_right _ h.pos
    obtain ⟨sz, hsz, hle, -⟩ := growSz_ok hlt hmax hfuel
    rw [if_pos hlt, hsz, ok_bind]
    exact ⟨_, _, _, rfl, ⟨rfl, rfl, by simp only; omega⟩, hle⟩
  · rw [if_neg hlt]
    exact ⟨save.ptr, save.sz, blk, rfl, h, by omega⟩

theorem noteCpsz_eq : save.noteCpsz = { save with maxCpsz := max save.maxCpsz save.validSz } := by
  unfold SaveStack.noteCpsz
  split
  · rw [max_eq_right (by omega)]
  · rw [max_eq_left (by omega)]

/-- The copies made so far, one more if there was anything to copy. -/
def countCopy (A : Arch) (n validSz : ℕ) : ℕ := if validSz > 0 then (n + 1) % A.size else n

/-- A save stack that holds what the share stack held from `sp` up to `align_retptr`. -/
structure SaveStack.Saved (save : SaveStack) (stk : ShareStack) (sp : ℕ) (blk : Block) : Prop where
  ready : save.Ready blk
  validSz : save.validSz = stk.alignRetptr - sp
  enough : save.validSz ≤ save.sz
  bytes : ∀ a, sp ≤ a → a < stk.alignRetptr → blk.bytes (blk.addr + (a - sp)) = stk.bytes a

theorem saveOwner_ok (malloc : Malloc) (hlaid : stk.Laid A protector) (hmax : 2 * stk.sz ≤ A.size)
    (hhome : owner.shareStack = k) (hlow : stk.low ≤ owner.reg A.sp)
    (hret : owner.reg A.sp ≤ stk.alignRetptr) (hready : owner.saveStack.Ready blk) :
    ∃ save blk', saveOwner A malloc k stk owner =
        .ok ({ owner with saveStack := save }, { stk with owner := none, alignValidsz := 0 }) ∧
      save.Saved stk (owner.reg A.sp) blk' ∧
      save.ctSave = countCopy A owner.saveStack.ctSave save.validSz ∧
      save.ctRestore = owner.saveStack.ctRestore ∧
      save.maxCpsz = max owner.saveStack.maxCpsz save.validSz := by
  have hroom := hlaid.inside
  obtain ⟨hptr, -, hret', -⟩ := hroom
  generalize hsp : owner.reg A.sp = sp at *
  obtain ⟨ptr, sz, blk', hgrow, hready', henough⟩ := grow_ok A malloc
    { owner.saveStack with validSz := stk.alignRetptr - sp }
    ⟨hready.ptr, hready.sz, hready.pos⟩ (by simp only; omega)
  have hblock : ptr = some blk' := hready'.ptr
  have hsize : blk'.sz = sz := hready'.sz
  have hpos' : 0 < sz := hready'.pos
  simp only at hgrow henough
  unfold saveOwner
  simp only [hsp, noteCpsz_eq]
  rw [acoAssert_pos hhome, ok_bind, acoAssert_pos ⟨hret, hlow⟩, ok_bind, hgrow, ok_bind]
  by_cases hpos : stk.alignRetptr - sp > 0
  · simp only [if_pos hpos]
    rw [hblock, deref_some, ok_bind, inBounds_pos (by omega), ok_bind]
    refine ⟨_, _, rfl, ⟨⟨rfl, hsize, hpos'⟩, rfl, henough, ?_⟩, (if_pos hpos).symm, rfl, rfl⟩
    intro a hge hlt
    have hplace : sp + (blk'.addr + (a - sp) - blk'.addr) = a := by omega
    simp only [copy_eq_memcpy]
    rw [memcpy, if_pos (by omega), hplace]
  · simp only [if_neg hpos]
    refine ⟨_, blk', rfl, ⟨⟨hblock, hsize, hpos'⟩, rfl, henough, ?_⟩, (if_neg hpos).symm, rfl, rfl⟩
    intro a hge hlt
    omega

/-- A save stack after its bytes have been copied back. -/
def SaveStack.restored (A : Arch) (save : SaveStack) : SaveStack :=
  { save with
    ctRestore := countCopy A save.ctRestore save.validSz
    maxCpsz := max save.maxCpsz save.validSz }

theorem restore_ok (hlaid : stk.Laid A protector) (hnone : stk.owner = none) (hlow : stk.low ≤ sp)
    (hret : sp ≤ stk.alignRetptr) (hready : co.saveStack.Ready blk)
    (hvalid : co.saveStack.validSz = stk.alignRetptr - sp)
    (henough : co.saveStack.validSz ≤ co.saveStack.sz) :
    restore A c stk co =
      .ok ({ co with saveStack := co.saveStack.restored A },
        { stk with
          bytes := memcpy stk.bytes sp blk.bytes blk.addr co.saveStack.validSz
          alignValidsz := co.saveStack.validSz + A.word
          owner := some c }) := by
  obtain ⟨hptr, -, hret', hspan⟩ := hlaid.inside
  unfold restore
  rw [acoAssert_pos hnone, ok_bind]
  simp only
  rw [acoAssert_pos (by omega), ok_bind]
  by_cases hpos : co.saveStack.validSz > 0
  · have hstart : stk.alignRetptr - co.saveStack.validSz = sp := by omega
    rw [if_pos hpos, hready.ptr, deref_some, ok_bind, inBounds_pos, ok_bind, copy_eq_memcpy, hstart]
    · simp only [SaveStack.restored, countCopy, if_pos hpos, noteCpsz_eq, hready.ptr]
      rfl
    · have := hready.sz
      omega
  · have hnothing : memcpy stk.bytes sp blk.bytes blk.addr co.saveStack.validSz = stk.bytes := by
      rw [Nat.eq_zero_of_not_pos hpos, memcpy_zero]
    rw [if_neg hpos, hnothing]
    simp only [SaveStack.restored, countCopy, if_neg hpos, noteCpsz_eq]
    rfl

end UnixCodes.Libaco
