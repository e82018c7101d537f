import Mathlib.Data.Int.Order.Basic
import UnixCodes.Lib.Align
import UnixCodes.Lib.Outcome
import UnixCodes.Libaco.Memcpy
import UnixCodes.Libaco.Switch

/-! `aco_share_stack_new2`. -/
namespace UnixCodes.Libaco

/-- What ends the process, and what C leaves undefined. -/
inductive Fault
  | assertion
  | dangling
  | overrun
  deriving DecidableEq

def acoAssert (p : Prop) [Decidable p] : Except Fault Unit :=
  if p then .ok () else .error .assertion

/-- The width of `size_t`, `uintptr_t` and `long`. -/
def Arch.bits (A : Arch) : ℕ := 8 * A.word

abbrev Arch.size (A : Arch) : ℕ := 2 ^ A.bits

/-- An address as it lies in memory. -/
def Arch.bytes (A : Arch) (v : ℕ) : Fin A.word → UInt8 := fun j => UInt8.ofNat (v / 256 ^ j.val)

/-- From `align_highptr` down to `align_retptr`; `aarch64` keeps the stack 16-byte aligned. -/
def Arch.retGap (A : Arch) : ℕ := if A = .aarch64 then 16 else A.word

/-- `aco_share_stack_t`, with the memory behind `ptr`. -/
structure ShareStack where
  ptr : ℕ
  sz : ℕ
  alignHighptr : ℕ
  alignRetptr : ℕ
  alignValidsz : ℕ
  alignLimit : ℕ
  owner : Option ℕ
  guardPageEnabled : Bool
  realPtr : ℕ
  realSz : ℕ
  bytes : Bytes

/-- The size of a mapping whose first page is the guard, and the size of the page. -/
def guardedSize (A : Arch) (sz : ℕ) (pgsz : ℤ) : Except Fault (ℕ × ℕ) := do
  acoAssert (0 < pgsz ∧ (pgsz.toNat - 1) &&& pgsz.toNat = 0)
  let uPgsz := pgsz.toNat
  acoAssert (((uPgsz <<< 1) % A.size) >>> 1 = uPgsz)
  if sz ≤ uPgsz then
    return ((uPgsz <<< 1) % A.size, uPgsz)
  else if sz &&& (uPgsz - 1) ≠ 0 then
    let newSz := sz &&& (A.size - 1 - (uPgsz - 1))
    acoAssert (newSz ≥ uPgsz)
    acoAssert ((newSz + uPgsz <<< 1) % A.size ≥ newSz)
    let newSz := (newSz + uPgsz <<< 1) % A.size
    acoAssert (sz / uPgsz + 2 = newSz / uPgsz)
    acoAssert (newSz / uPgsz > 1 ∧ newSz &&& (uPgsz - 1) = 0)
    return (newSz, uPgsz)
  else
    acoAssert ((sz + uPgsz) % A.size ≥ sz)
    let newSz := (sz + uPgsz) % A.size
    acoAssert (sz / uPgsz + 1 = newSz / uPgsz)
    acoAssert (newSz / uPgsz > 1 ∧ newSz &&& (uPgsz - 1) = 0)
    return (newSz, uPgsz)

/-- Two megabytes unless something else is asked for, and at least 4096 bytes. -/
def requestedSize (sz : ℕ) : ℕ :=
  let sz := if sz = 0 then 1024 * 1024 * 2 else sz
  if sz < 4096 then 4096 else sz

/-- The pointers into the memory, whatever it has held so far; `protector` is the address of
`aco_funcp_protector_asm`. -/
def layOut (A : Arch) (protector : ℕ) (p : ShareStack) : Except Fault ShareStack := do
  let u := (p.sz - A.word <<< 1 + p.ptr) % A.size
  let u := u >>> 4 <<< 4
  let ret := if A = .aarch64 then u - 16 else u - A.word
  acoAssert (p.sz > 16 + A.word <<< 1 + A.word)
  return { p with
    alignHighptr := u
    alignRetptr := ret
    bytes := storeWord p.bytes ret (A.bytes protector)
    alignLimit := p.sz - 16 - A.word <<< 1 }

/-- `addr` is what `mmap` or `malloc` returns, and `junk` is what lies there. -/
def acoShareStackNew2 (A : Arch) (protector sz : ℕ) (guardPageEnabled : Bool) (pgsz : ℤ)
    (addr : ℕ) (junk : Bytes) : Except Fault ShareStack := do
  let sz := requestedSize sz
  acoAssert (sz > 0)
  if guardPageEnabled then
    let (sz, uPgsz) ← guardedSize A sz pgsz
    acoAssert (sz ≥ uPgsz <<< 1)
    layOut A protector
      { ptr := addr + uPgsz, sz := sz - uPgsz, alignHighptr := 0, alignRetptr := 0
        alignValidsz := 0, alignLimit := 0, owner := none, guardPageEnabled := true
        realPtr := addr, realSz := sz, bytes := junk }
  else
    layOut A protector
      { ptr := addr, sz := sz, alignHighptr := 0, alignRetptr := 0, alignValidsz := 0
        alignLimit := 0, owner := none, guardPageEnabled := false, realPtr := 0, realSz := 0
        bytes := junk }

variable {A : Arch} {sz addr protector request : ℕ} {pgsz : ℤ} {junk : Bytes} {p : ShareStack}

theorem acoAssert_pos {q : Prop} [Decidable q] (h : q) : acoAssert q = .ok () := if_pos h

theorem acoAssert_neg {q : Prop} [Decidable q] (h : ¬ q) : acoAssert q = .error .assertion :=
  if_neg h

theorem ok_bind {α β : Type} (a : α) (f : α → Except Fault β) : (Except.ok a >>= f) = f a := rfl

theorem error_bind {α β : Type} (e : Fault) (f : α → Except Fault β) :
    (Except.error e >>= f) = .error e := rfl

theorem size_eq (A : Arch) : A.size = 2 * (A.size / 2) := by
  cases A <;> rfl

theorem two_pow_page (hlong : pgsz < (A.size / 2 : ℕ)) (hpos : 0 < pgsz)
    (hpow : pgsz.toNat.isPowerOfTwo) :
    ∃ k < A.bits, pgsz.toNat = 2 ^ k ∧ 2 * pgsz.toNat < A.size := by
  obtain ⟨k, hk⟩ := hpow
  have hlt : 2 * pgsz.toNat < A.size := by
    have := size_eq A
    omega
  refine ⟨k, ?_, hk, hlt⟩
  have hsmall : 2 ^ k < A.size := by omega
  exact (Nat.pow_lt_pow_iff_right (by decide)).mp hsmall

/-- `e` more pages behind `q` of them: the checks of the sum fail where it wraps around, and only
there. -/
theorem checkedSum_eq {size k P q e : ℕ} (hP : P = 2 ^ k) (hq : 0 < q) (he : 0 < e)
    (hbase : q * P < size) (hextra : e * P < size) :
    (do acoAssert ((q * P + e * P) % size ≥ q * P)
        acoAssert (q + e = (q * P + e * P) % size / P)
        acoAssert ((q * P + e * P) % size / P > 1 ∧ (q * P + e * P) % size &&& (P - 1) = 0)
        return ((q * P + e * P) % size, P)) =
      if (q + e) * P < size then .ok ((q + e) * P, P) else .error Fault.assertion := by
  have hpos : 0 < P := by
    rw [hP]
    exact Nat.two_pow_pos k
  have hsum : q * P + e * P = (q + e) * P := (Nat.add_mul ..).symm
  by_cases hfit : (q + e) * P < size
  · have hdiv : (q + e) * P / P = q + e := Nat.mul_div_cancel _ hpos
    have hmask : (q + e) * P &&& (P - 1) = 0 := by
      rw [hP, Nat.and_two_pow_sub_one_eq_mod, Nat.mul_mod_left]
    rw [if_pos hfit, hsum, Nat.mod_eq_of_lt hfit, hdiv, acoAssert_pos, ok_bind,
      acoAssert_pos rfl, ok_bind, acoAssert_pos ⟨by omega, hmask⟩, ok_bind]
    · rfl
    · exact Nat.mul_le_mul_right P (by omega)
  · have hwrap : ¬ (q * P + e * P) % size ≥ q * P := by
      intro hle
      rw [ge_iff_le, le_add_mod_iff hbase hextra, hsum] at hle
      exact hfit hle
    rw [if_neg hfit, acoAssert_neg hwrap, error_bind]

/-- A page more than the request needs, or nothing where that is more than `size_t` holds. -/
theorem guardedSize_eq (hsz : sz < A.size) (hpos : 0 < sz) (hlong : pgsz < (A.size / 2 : ℕ)) :
    guardedSize A sz pgsz =
      if 0 < pgsz ∧ pgsz.toNat.isPowerOfTwo ∧ (pages pgsz.toNat sz + 1) * pgsz.toNat < A.size then
        .ok ((pages pgsz.toNat sz + 1) * pgsz.toNat, pgsz.toNat)
      else .error .assertion := by
  have hcheck : (0 < pgsz ∧ (pgsz.toNat - 1) &&& pgsz.toNat = 0) ↔
      0 < pgsz ∧ pgsz.toNat.isPowerOfTwo := by
    refine and_congr_right fun h => ?_
    rw [Nat.and_comm, Nat.and_sub_one_eq_zero_iff_isPowerOfTwo (by omega)]
  unfold guardedSize
  by_cases hpage : 0 < pgsz ∧ pgsz.toNat.isPowerOfTwo
  · rw [acoAssert_pos (hcheck.mpr hpage), ok_bind]
    obtain ⟨k, hk, hp, hdouble⟩ := two_pow_page hlong hpage.1 hpage.2
    have hp0 : 0 < pgsz.toNat := by omega
    generalize hP : pgsz.toNat = P at *
    have hshift : P <<< 1 = 2 * P := by
      rw [Nat.shiftLeft_eq]
      omega
    have hmod : (2 * P) % A.size = 2 * P := Nat.mod_eq_of_lt hdouble
    have hhalf : (2 * P) >>> 1 = P := by
      rw [Nat.shiftRight_eq_div_pow]
      omega
    have hmask : sz &&& (P - 1) = sz % P := by
      rw [hp]
      exact Nat.and_two_pow_sub_one_eq_mod sz k
    have hhigh : A.size - 1 - (P - 1) = A.size - 2 ^ k := by omega
    simp only [hshift, hmask, hhigh]
    rw [acoAssert_pos (by rw [hmod, hhalf]), ok_bind]
    by_cases hsmall : sz ≤ P
    · rw [if_pos hsmall, hmod, pages_eq_one hpos hsmall, if_pos ⟨hpage.1, hpage.2, by omega⟩]
      rfl
    · have hq : 0 < sz / P := Nat.div_pos (by omega) hp0
      have hbase : sz / P * P < A.size := (Nat.div_mul_le_self sz P).trans_lt hsz
      rw [if_neg hsmall]
      by_cases hdvd : sz % P = 0
      · have hwhole : sz / P * P = sz := Nat.div_mul_cancel (Nat.dvd_of_mod_eq_zero hdvd)
        have hsum := checkedSum_eq (e := 1) hp hq Nat.one_pos hbase (by omega)
        rw [hwhole, one_mul] at hsum
        rw [if_neg (by simp [hdvd]), hsum, pages_of_dvd hp0 hdvd]
        simp [hpage]
      · have hsum := checkedSum_eq (e := 2) hp hq Nat.two_pos hbase hdouble
        have hfloor : sz &&& (A.size - 2 ^ k) = sz / P * P := by
          rw [hp]
          exact and_mask_high hk.le hsz
        rw [if_pos hdvd, hfloor, acoAssert_pos (Nat.le_mul_of_pos_left P hq), ok_bind,
          hsum, pages_of_not_dvd hp0 hdvd]
        simp [hpage]
  · rw [acoAssert_neg (hcheck.not.mpr hpage), error_bind, if_neg fun h => hpage ⟨h.1, h.2.1⟩]

theorem word_cases (A : Arch) : A.word = 4 ∨ A.word = 8 := by
  cases A with
  | i386 => exact .inl rfl
  | x86_64 => exact .inr rfl
  | aarch64 => exact .inr rfl

theorem size_le (A : Arch) : 2 ^ 32 ≤ A.size :=
  Nat.pow_le_pow_right (by decide) (by cases A <;> decide)

theorem requestedSize_lt (h : sz < A.size) : requestedSize sz < A.size := by
  have := size_le A
  simp only [requestedSize]
  split <;> split <;> omega

theorem le_requestedSize (sz : ℕ) : 4096 ≤ requestedSize sz := by
  simp only [requestedSize]
  split <;> split <;> omega

/-- Where the pointers of a share stack lie, and what they are to find there. -/
structure ShareStack.Laid (A : Arch) (protector : ℕ) (p : ShareStack) : Prop where
  room : p.ptr + p.sz ≤ A.size
  large : 4096 ≤ p.sz
  aligned : 16 ∣ p.alignHighptr
  high_le : p.alignHighptr + 2 * A.word ≤ p.ptr + p.sz
  lt_high : p.ptr + p.sz < p.alignHighptr + 2 * A.word + 16
  ret : p.alignRetptr + A.retGap = p.alignHighptr
  limit : p.alignLimit + 16 + 2 * A.word = p.sz
  guarded : loadWord A.word p.bytes p.alignRetptr = A.bytes protector

theorem retGap_cases (A : Arch) :
    (A = .aarch64 ∧ A.retGap = 16) ∨ (A ≠ .aarch64 ∧ A.retGap = A.word) := by
  cases A with
  | i386 => exact .inr ⟨by decide, rfl⟩
  | x86_64 => exact .inr ⟨by decide, rfl⟩
  | aarch64 => exact .inl ⟨rfl, rfl⟩

theorem loadWord_storeWord {w : ℕ} (dst : Bytes) (q : ℕ) (x : Fin w → UInt8) :
    loadWord w (storeWord dst q x) q = x := by
  funext j
  have hin : q ≤ q + j.val ∧ q + j.val < q + w := ⟨by omega, by omega⟩
  simp [loadWord, storeWord, hin]

/-- With room for the pointers, they are laid out and nothing else of the share stack changes. -/
theorem layOut_laid (A : Arch) (protector : ℕ) (p : ShareStack)
    (hroom : p.ptr + p.sz ≤ A.size) (hlarge : 4096 ≤ p.sz) :
    ∃ high ret bytes limit, layOut A protector p =
        .ok { p with
          alignHighptr := high, alignRetptr := ret, bytes := bytes, alignLimit := limit } ∧
      ShareStack.Laid A protector
        { p with
          alignHighptr := high, alignRetptr := ret, bytes := bytes, alignLimit := limit } := by
  have hword := word_cases A
  have hshift : A.word <<< 1 = 2 * A.word := by
    rw [Nat.shiftLeft_eq]
    omega
  have htop : (p.sz - A.word <<< 1 + p.ptr) % A.size = p.ptr + p.sz - 2 * A.word := by
    rw [hshift, Nat.mod_eq_of_lt (by omega)]
    omega
  have hround : (p.ptr + p.sz - 2 * A.word) >>> 4 <<< 4 = (p.ptr + p.sz - 2 * A.word) / 16 * 16 :=
    shiftRight_shiftLeft ..
  have hret : (if A = .aarch64 then (p.ptr + p.sz - 2 * A.word) / 16 * 16 - 16
      else (p.ptr + p.sz - 2 * A.word) / 16 * 16 - A.word) =
      (p.ptr + p.sz - 2 * A.word) / 16 * 16 - A.retGap := by
    obtain ⟨hA, hgap⟩ | ⟨hA, hgap⟩ := retGap_cases A
    · rw [if_pos hA, hgap]
    · rw [if_neg hA, hgap]
  unfold layOut
  simp only [htop, hround, hret]
  rw [acoAssert_pos (by omega), ok_bind]
  refine ⟨_, _, _, _, rfl, hroom, hlarge, ⟨_, Nat.mul_comm ..⟩, ?_, ?_, ?_, ?_,
    loadWord_storeWord ..⟩
  · change (p.ptr + p.sz - 2 * A.word) / 16 * 16 + 2 * A.word ≤ p.ptr + p.sz
    omega
  · change p.ptr + p.sz < (p.ptr + p.sz - 2 * A.word) / 16 * 16 + 2 * A.word + 16
    omega
  · change (p.ptr + p.sz - 2 * A.word) / 16 * 16 - A.retGap + A.retGap =
      (p.ptr + p.sz - 2 * A.word) / 16 * 16
    obtain ⟨-, hgap⟩ | ⟨-, hgap⟩ := retGap_cases A <;> omega
  · change p.sz - 16 - A.word <<< 1 + 16 + 2 * A.word = p.sz
    omega

/-- What a guard page in front of a request takes: a page size that is a power of two, and a
mapping whose size a `size_t` holds. -/
def Guardable (A : Arch) (sz : ℕ) (pgsz : ℤ) : Prop :=
  0 < pgsz ∧ pgsz.toNat.isPowerOfTwo ∧ (pages pgsz.toNat sz + 1) * pgsz.toNat < A.size

instance : Decidable (Guardable A sz pgsz) := by
  unfold Guardable
  infer_instance

/-- The size of the mapping, or of the block of `malloc`. -/
def mappedSize (sz : ℕ) (guardPageEnabled : Bool) (pgsz : ℤ) : ℕ :=
  if guardPageEnabled then (pages pgsz.toNat (requestedSize sz) + 1) * pgsz.toNat
  else requestedSize sz

/-- What `aco_share_stack_new2` promises of its result. -/
structure ShareStack.Made (A : Arch) (protector sz : ℕ) (guardPageEnabled : Bool) (pgsz : ℤ)
    (addr : ℕ) (p : ShareStack) : Prop where
  laid : p.Laid A protector
  enough : requestedSize sz ≤ p.sz
  owner : p.owner = none
  validsz : p.alignValidsz = 0
  guard : guardPageEnabled = true → p.realPtr = addr ∧ p.realSz = mappedSize sz true pgsz ∧
    p.ptr = addr + pgsz.toNat ∧ p.ptr + p.sz = addr + p.realSz
  plain : guardPageEnabled = false → p.ptr = addr ∧ p.sz = requestedSize sz

theorem made_plain (haddr : addr + mappedSize sz false pgsz ≤ A.size) :
    ∃ p, acoShareStackNew2 A protector sz false pgsz addr junk = .ok p ∧
      p.Made A protector sz false pgsz addr := by
  have hlarge := le_requestedSize sz
  obtain ⟨high, ret, bytes, limit, heq, hlaid⟩ := layOut_laid A protector
    ⟨addr, requestedSize sz, 0, 0, 0, 0, none, false, 0, 0, junk⟩ haddr hlarge
  refine ⟨_, ?_, hlaid, le_rfl, rfl, rfl, nofun, fun _ => ⟨rfl, rfl⟩⟩
  simp only [acoShareStackNew2]
  rw [acoAssert_pos (by omega), ok_bind]
  exact heq

theorem made_guarded (hsz : sz < A.size) (hlong : pgsz < (A.size / 2 : ℕ))
    (haddr : addr + mappedSize sz true pgsz ≤ A.size) (hg : Guardable A (requestedSize sz) pgsz) :
    ∃ p, acoShareStackNew2 A protector sz true pgsz addr junk = .ok p ∧
      p.Made A protector sz true pgsz addr := by
  have hlarge := le_requestedSize sz
  have hpos : 0 < pgsz.toNat := by
    have := hg.1
    omega
  have hpages := le_pages_mul (n := requestedSize sz) hpos
  have hone : 1 ≤ pages pgsz.toNat (requestedSize sz) := by
    by_contra hzero
    rw [Nat.lt_one_iff.mp (not_le.mp hzero), Nat.zero_mul] at hpages
    omega
  have hsum : mappedSize sz true pgsz =
      pages pgsz.toNat (requestedSize sz) * pgsz.toNat + pgsz.toNat := Nat.succ_mul ..
  have hdouble : mappedSize sz true pgsz ≥ pgsz.toNat <<< 1 := by
    have hle : 1 * pgsz.toNat ≤ pages pgsz.toNat (requestedSize sz) * pgsz.toNat :=
      Nat.mul_le_mul_right _ hone
    rw [hsum, Nat.shiftLeft_eq]
    omega
  obtain ⟨high, ret, bytes, limit, heq, hlaid⟩ := layOut_laid A protector
    ⟨addr + pgsz.toNat, mappedSize sz true pgsz - pgsz.toNat, 0, 0, 0, 0, none, true, addr,
      mappedSize sz true pgsz, junk⟩ (by simp only; omega) (by simp only; omega)
  refine ⟨_, ?_, hlaid, ?_, rfl, rfl, fun _ => ⟨rfl, rfl, rfl, ?_⟩, nofun⟩
  · simp only [acoShareStackNew2, if_true]
    rw [acoAssert_pos (by omega), ok_bind, guardedSize_eq (requestedSize_lt hsz) (by omega) hlong]
    unfold Guardable at hg
    rw [if_pos hg, ok_bind]
    change (acoAssert (mappedSize sz true pgsz ≥ pgsz.toNat <<< 1) >>= fun _ => _) = _
    rw [acoAssert_pos hdouble, ok_bind]
    exact heq
  · change requestedSize sz ≤ mappedSize sz true pgsz - pgsz.toNat
    omega
  · change addr + pgsz.toNat + (mappedSize sz true pgsz - pgsz.toNat) =
      addr + mappedSize sz true pgsz
    omega

theorem not_made (hsz : sz < A.size) (hlong : pgsz < (A.size / 2 : ℕ))
    (hg : ¬ Guardable A (requestedSize sz) pgsz) :
    acoShareStackNew2 A protector sz true pgsz addr junk = .error .assertion := by
  have hlarge := le_requestedSize sz
  simp only [acoShareStackNew2, if_true]
  rw [acoAssert_pos (by omega), ok_bind, guardedSize_eq (requestedSize_lt hsz) (by omega) hlong]
  unfold Guardable at hg
  rw [if_neg hg, error_bind]

/-- The process is aborted if the page size or the size of the mapping forbids a guard page, and
otherwise a share stack is made in the memory that `mmap` or `malloc` returns. -/
theorem acoShareStackNew2_spec (A : Arch) (protector sz : ℕ) (guardPageEnabled : Bool) (pgsz : ℤ)
    (addr : ℕ) (junk : Bytes) (hsz : sz < A.size) (hlong : pgsz < (A.size / 2 : ℕ)) :
    if guardPageEnabled = true ∧ ¬ Guardable A (requestedSize sz) pgsz then
      acoShareStackNew2 A protector sz guardPageEnabled pgsz addr junk = .error .assertion
    else addr + mappedSize sz guardPageEnabled pgsz ≤ A.size →
      ∃ p, acoShareStackNew2 A protector sz guardPageEnabled pgsz addr junk = .ok p ∧
        p.Made A protector sz guardPageEnabled pgsz addr := by
  cases guardPageEnabled with
  | false =>
    rw [if_neg (by simp)]
    exact made_plain
  | true =>
    by_cases hg : Guardable A (requestedSize sz) pgsz
    · rw [if_neg (by simp [hg])]
      exact fun haddr => made_guarded hsz hlong haddr hg
    · rw [if_pos ⟨rfl, hg⟩]
      exact not_made hsz hlong hg

/-- The default stack behind a page of 4096 bytes, and a request as large as `size_t` goes. -/
theorem acoShareStackNew2_spec_default :
    (∃ p, acoShareStackNew2 .x86_64 7 0 true 4096 8192 (fun _ => 0) = .ok p ∧
      p.Made .x86_64 7 0 true 4096 8192) ∧
    ∀ addr, acoShareStackNew2 .x86_64 7 (2 ^ 64 - 1) true 4096 addr (fun _ => 0) =
      .error .assertion := by
  constructor
  · have hg : Guardable .x86_64 (requestedSize 0) 4096 := ⟨by decide, ⟨12, by decide⟩, by decide⟩
    have hspec := acoShareStackNew2_spec .x86_64 7 0 true 4096 8192 (fun _ => 0) (by decide)
      (by decide)
    rw [if_neg fun h => h.2 hg] at hspec
    exact hspec (by decide)
  · intro addr
    have hg : ¬ Guardable .x86_64 (requestedSize (2 ^ 64 - 1)) 4096 := fun h =>
      absurd h.2.2 (by decide)
    have hspec := acoShareStackNew2_spec .x86_64 7 (2 ^ 64 - 1) true 4096 addr (fun _ => 0)
      (by decide) (by decide)
    rwa [if_pos ⟨rfl, hg⟩] at hspec

end UnixCodes.Libaco
