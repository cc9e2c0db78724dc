import Valgrind.Core.Basics

/-!
# Drd/Bitmap1 — `drd/drd_bitmap.h`: the address split, and one second-level bitmap's words

An address is split into a block number (`address_msb`) and a position in the block (`address_lsb`),
and the position into a word of the block's bitmap and a bit of the word.  The functions on words are
specified by the bits they leave: `Bm0.bit m a` is the bit for position `a`.
-/

namespace Valgrind.Drd

open Nat hiding bit
open BitVec

/-! ## The address split -/

/-- `ADDR_LSB_BITS`; `ADDR_IGNORED_BITS` is zero. -/
def addrLsbBits : ℕ := 12

/-- `BITS_PER_BITS_PER_UWORD`. -/
def bitsPerBitsPerUWord : ℕ := 6

/-- `ADDR_LSB_MASK`. -/
def addrLsbMask : UWord := 2 ^ addrLsbBits - 1

/-- `UWORD_LSB_MASK`. -/
def uwordLsbMask : UWord := 2 ^ bitsPerBitsPerUWord - 1

/-- `SCALED_SIZE`. -/
def scaledSize (a : ℕ) : ℕ := ((a + (2 ^ 64 - 1)) % 2 ^ 64 + 1) % 2 ^ 64

/-- `address_lsb`. -/
def addressLsb (a : Addr) : UWord := a &&& addrLsbMask

/-- `address_msb`. -/
def addressMsb (a : Addr) : UWord := a >>> addrLsbBits

/-- `first_address_with_higher_msb`. -/
def firstAddressWithHigherMsb (a : Addr) : Addr := ((a ||| addrLsbMask) + 1) % 2 ^ 64

/-- `make_address`. -/
def makeAddress (a1 a0 : UWord) : Addr := (a1 <<< addrLsbBits) % 2 ^ 64 ||| a0

/-- `uword_msb`. -/
def uwordMsb (a : UWord) : UWord := a >>> bitsPerBitsPerUWord

/-- `uword_lsb`. -/
def uwordLsb (a : UWord) : UWord := a &&& uwordLsbMask

/-- `first_address_with_same_uword_lsb`. -/
def firstAddressWithSameUwordLsb (a : Addr) : Addr := a &&& ((2 ^ 64 - 1) ^^^ uwordLsbMask)

/-- `first_address_with_higher_uword_msb`. -/
def firstAddressWithHigherUwordMsb (a : Addr) : Addr := ((a ||| uwordLsbMask) + 1) % 2 ^ 64

theorem or_two_pow_sub_one (a n : ℕ) : a ||| (2 ^ n - 1) = a / 2 ^ n * 2 ^ n + (2 ^ n - 1) := by
  have hlt : 2 ^ n - 1 < 2 ^ n := Nat.sub_lt (Nat.two_pow_pos n) one_pos
  rw [mul_comm, two_pow_add_eq_or_of_lt hlt]
  refine eq_of_testBit_eq fun i => ?_
  rw [testBit_or, testBit_or, testBit_two_pow_sub_one, testBit_two_pow_mul,
    testBit_div_two_pow]
  by_cases hi : i < n
  · simp [hi]
  · rw [Nat.sub_add_cancel (not_lt.mp hi)]
    simp [hi, not_lt.mp hi]

@[simp] theorem scaledSize_eq {a : ℕ} (h : a < 2 ^ 64) : scaledSize a = a := by
  rw [scaledSize]
  omega

theorem addressLsb_eq (a : ℕ) : addressLsb a = a % 4096 := and_two_pow_sub_one_eq_mod a 12

theorem addressMsb_eq (a : ℕ) : addressMsb a = a / 4096 := shiftRight_eq_div_pow a 12

theorem uwordLsb_eq (a : ℕ) : uwordLsb a = a % 64 := and_two_pow_sub_one_eq_mod a 6

theorem uwordMsb_eq (a : ℕ) : uwordMsb a = a / 64 := shiftRight_eq_div_pow a 6

theorem firstAddressWithHigherMsb_eq {a : ℕ} (h : a < 2 ^ 64 - 4096) :
    firstAddressWithHigherMsb a = (a / 4096 + 1) * 4096 := by
  have hor := or_two_pow_sub_one a 12
  rw [firstAddressWithHigherMsb, addrLsbMask, addrLsbBits, hor]
  change @Eq ℕ _ _
  omega

theorem firstAddressWithHigherUwordMsb_eq {a : ℕ} (h : a < 2 ^ 64 - 4096) :
    firstAddressWithHigherUwordMsb a = (a / 64 + 1) * 64 := by
  have hor := or_two_pow_sub_one a 6
  rw [firstAddressWithHigherUwordMsb, uwordLsbMask, bitsPerBitsPerUWord, hor]
  change @Eq ℕ _ _
  omega

theorem firstAddressWithSameUwordLsb_eq {a : ℕ} (h : a < 2 ^ 64) :
    firstAddressWithSameUwordLsb a = a / 64 * 64 := by
  refine eq_of_testBit_eq fun i => ?_
  have hmul : a / 64 * 64 = 2 ^ 6 * (a / 2 ^ 6) := by omega
  rw [firstAddressWithSameUwordLsb, hmul, testBit_and, testBit_xor,
    testBit_two_pow_sub_one, uwordLsbMask, bitsPerBitsPerUWord, testBit_two_pow_sub_one,
    testBit_two_pow_mul, testBit_div_two_pow]
  by_cases hi : i < 6
  · have h64 : i < 64 := by omega
    simp [hi, h64, not_le.mpr hi]
  · rw [Nat.sub_add_cancel (not_lt.mp hi)]
    by_cases h64 : i < 64
    · simp [hi, h64, not_lt.mp hi]
    · have hbit : a.testBit i = false :=
        Nat.testBit_lt_two_pow (h.trans_le (Nat.pow_le_pow_right (by norm_num) (not_lt.mp h64)))
      simp [hbit]

theorem makeAddress_zero {a1 : ℕ} (h : a1 < 2 ^ 52) : makeAddress a1 0 = a1 * 4096 := by
  rw [makeAddress, Nat.or_zero, Nat.shiftLeft_eq, addrLsbBits]
  change @Eq ℕ _ _
  omega

/-! ## The words of a bitmap -/

/-- `BITMAP1_UWORD_COUNT`. -/
abbrev bitmap1UWordCount : ℕ := 64

/-- The bits of one kind of access: `UWord bm0[BITMAP1_UWORD_COUNT]`. -/
abbrev Bm0 := Vector (BitVec 64) bitmap1UWordCount

namespace Bm0

/-- `bm0[k]`. -/
def word (m : Bm0) (k : ℕ) : BitVec 64 := m[k]?.getD 0

/-- `bm0[k] = f(bm0[k])`. -/
def modifyWord (m : Bm0) (k : ℕ) (f : BitVec 64 → BitVec 64) : Bm0 := m.setIfInBounds k (f (m.word k))

/-- The bit for position `a` of the block. -/
def bit (m : Bm0) (a : ℕ) : Bool := (m.word (a / 64)).getLsbD (a % 64)

theorem word_modifyWord {m : Bm0} {k : ℕ} (hk : k < 64) (f : BitVec 64 → BitVec 64)
    (j : ℕ) : (m.modifyWord k f).word j = if j = k then f (m.word k) else m.word j := by
  rw [word, modifyWord, Vector.getElem?_setIfInBounds]
  by_cases hj : j = k
  · rw [if_pos hj.symm, if_pos (hj ▸ hk), if_pos hj]
    rfl
  · rw [if_neg (Ne.symm hj), if_neg hj]
    rfl

/-- **A change of one word**, bit by bit. -/
theorem bit_modifyWord {m : Bm0} {k : ℕ} (hk : k < 64) (f : BitVec 64 → BitVec 64)
    (b : ℕ) : (m.modifyWord k f).bit b
      = if b / 64 = k then (f (m.word k)).getLsbD (b % 64) else m.bit b := by
  rw [bit, word_modifyWord hk]
  split_ifs <;> rfl

end Bm0

open Bm0

/-- `(((UWord)1 << size) - 1) << lsb`. -/
def rangeMask (size lsb : ℕ) : BitVec 64 := ((1#64 <<< size) - 1#64) <<< lsb

/-- `bm0_set`. -/
def bm0Set (m : Bm0) (a : UWord) : Bm0 := m.modifyWord (uwordMsb a) (· ||| (1#64 <<< uwordLsb a))

/-- `bm0_set_range`. -/
def bm0SetRange (m : Bm0) (a : UWord) (size : ℕ) : Bm0 :=
  m.modifyWord (uwordMsb a) (· ||| rangeMask size (uwordLsb a))

/-- `bm0_clear_range`. -/
def bm0ClearRange (m : Bm0) (a : UWord) (size : ℕ) : Bm0 :=
  if size > 0 then m.modifyWord (uwordMsb a) (· &&& ~~~ rangeMask size (uwordLsb a)) else m

/-- `bm0_is_set`. -/
def bm0IsSet (m : Bm0) (a : UWord) : BitVec 64 := m.word (uwordMsb a) &&& (1#64 <<< uwordLsb a)

/-- `bm0_is_any_set`. -/
def bm0IsAnySet (m : Bm0) (a : UWord) (size : ℕ) : BitVec 64 :=
  m.word (uwordMsb a) &&& rangeMask size (uwordLsb a)

/-- `VG_(memset)(&bm0[idx], 0, n)`, for `n` bytes of whole words. -/
def bm0ClearWords (m : Bm0) (idx n : ℕ) : Bm0 :=
  (List.range' idx (n / 8)).foldl (fun m k => m.modifyWord k fun _ => 0) m

/-- All words with all bits: the loop that fills a block. -/
def bm0Fill : Bm0 := Vector.replicate _ (BitVec.allOnes 64)

/-- `VG_(memset)(bm0, 0, sizeof bm0)`. -/
def bm0Zero : Bm0 := Vector.replicate _ 0

/-- `for (k = 0; k < BITMAP1_UWORD_COUNT; k++) l[k] |= r[k];` -/
def bm0Or (l r : Bm0) : Bm0 := Vector.zipWith (· ||| ·) l r

section Bits

variable {m : Bm0} {a b size : ℕ}

@[simp] theorem bit_bm0Zero (b : ℕ) : bit bm0Zero b = false := by
  rw [bit, word, bm0Zero, Vector.getElem?_replicate]
  split_ifs <;> simp

theorem bit_bm0Fill (hb : b < 4096) : bit bm0Fill b = true := by
  have hk : b / 64 < 64 := by omega
  rw [bit, word, bm0Fill, Vector.getElem?_replicate, if_pos hk, Option.getD_some,
    getLsbD_allOnes]
  exact decide_eq_true (mod_lt _ (by norm_num))

@[simp] theorem bit_bm0Or (l r : Bm0) (b : ℕ) : bit (bm0Or l r) b = (bit l b || bit r b) := by
  rw [bit, bit, bit, word, word, word, bm0Or, Vector.getElem?_zipWith]
  by_cases hk : b / 64 < 64
  · rw [Vector.getElem?_eq_getElem hk, Vector.getElem?_eq_getElem hk]
    exact getLsbD_or
  · rw [Vector.getElem?_eq_none (not_lt.mp hk), Vector.getElem?_eq_none (not_lt.mp hk)]
    simp

/-- The mask has the bits of its range. -/
theorem getLsbD_rangeMask {lsb i : ℕ} (hi : i < 64) (hs : size < 64) :
    (rangeMask size lsb).getLsbD i = decide (lsb ≤ i ∧ i < lsb + size) := by
  have hone : ((1#64 <<< size) - 1#64) = BitVec.ofNat 64 (2 ^ size - 1) := by
    have hpow : 2 ^ size < 2 ^ 64 := Nat.pow_lt_pow_right (by norm_num) hs
    have hpos := Nat.two_pow_pos size
    refine eq_of_toNat_eq ?_
    rw [toNat_sub, toNat_shiftLeft, toNat_ofNat, toNat_ofNat,
      Nat.shiftLeft_eq]
    omega
  rw [rangeMask, hone, getLsbD_shiftLeft, getLsbD_ofNat, testBit_two_pow_sub_one]
  by_cases hlt : i < lsb
  · simp [hlt, not_le.mpr hlt]
  · have hle := not_lt.mp hlt
    have h64 : i - lsb < 64 := by omega
    have hiff : i - lsb < size ↔ i < lsb + size := by omega
    simp [hi, hle, not_lt.mpr hle, h64, hiff]

/-- A range of positions in one word. -/
theorem mem_range_iff (hb : b / 64 = a / 64) :
    (a % 64 ≤ b % 64 ∧ b % 64 < a % 64 + size) ↔ a ≤ b ∧ b < a + size := by
  omega

theorem div_eq_of_mem_range (ha : a % 64 + size ≤ 64) (h : a ≤ b ∧ b < a + size) : b / 64 = a / 64 := by
  omega

theorem bit_bm0SetRange (ha : a < 4096) (hs : size < 64) (hw : a % 64 + size ≤ 64) (b : ℕ) :
    bit (bm0SetRange m a size) b = (bit m b || decide (a ≤ b ∧ b < a + size)) := by
  have hk : a / 64 < 64 := by omega
  rw [bm0SetRange, uwordMsb_eq, uwordLsb_eq, bit_modifyWord hk, getLsbD_or,
    getLsbD_rangeMask (mod_lt _ (by norm_num)) hs]
  split_ifs with hb
  · rw [bit, hb, decide_eq_decide.mpr (mem_range_iff hb)]
  · rw [decide_eq_false fun h => hb (div_eq_of_mem_range hw h), Bool.or_false]

theorem bm0Set_eq (m : Bm0) (a : ℕ) : bm0Set m a = bm0SetRange m a 1 := by
  rw [bm0Set, bm0SetRange, rangeMask]
  rfl

theorem bit_bm0Set (ha : a < 4096) (b : ℕ) : bit (bm0Set m a) b = (bit m b || decide (a = b)) := by
  have hiff : (a ≤ b ∧ b < a + 1) ↔ a = b := by omega
  rw [bm0Set_eq, bit_bm0SetRange ha (by norm_num) (by omega), decide_eq_decide.mpr hiff]

theorem bit_bm0ClearRange (ha : size = 0 ∨ a < 4096) (hs : size < 64) (hw : a % 64 + size ≤ 64)
    (b : ℕ) : bit (bm0ClearRange m a size) b = (bit m b && !decide (a ≤ b ∧ b < a + size)) := by
  rw [bm0ClearRange]
  split_ifs with hpos
  · have hk : a / 64 < 64 := by omega
    rw [uwordMsb_eq, uwordLsb_eq, bit_modifyWord hk, getLsbD_and, getLsbD_not,
      getLsbD_rangeMask (mod_lt _ (by norm_num)) hs]
    have h64 : b % 64 < 64 := mod_lt _ (by norm_num)
    split_ifs with hb
    · rw [bit, hb, decide_eq_decide.mpr (mem_range_iff hb), decide_eq_true h64, Bool.true_and]
    · rw [decide_eq_false fun h => hb (div_eq_of_mem_range hw h), Bool.not_false, Bool.and_true]
  · have hno : ¬ (a ≤ b ∧ b < a + size) := by omega
    rw [decide_eq_false hno, Bool.not_false, Bool.and_true]

/-- A word's bits in a range are not all zero iff some bit of the range is set. -/
theorem bm0IsAnySet_ne_zero_iff (hs : size < 64) (hw : a % 64 + size ≤ 64) :
    bm0IsAnySet m a size ≠ 0 ↔ ∃ b, (a ≤ b ∧ b < a + size) ∧ bit m b = true := by
  rw [bm0IsAnySet, uwordMsb_eq, uwordLsb_eq]
  constructor
  · intro hne
    by_contra hno
    push Not at hno
    refine hne (eq_of_getLsbD_eq fun i hi => ?_)
    rw [getLsbD_and, getLsbD_rangeMask hi hs]
    by_cases hin : a % 64 ≤ i ∧ i < a % 64 + size
    · have hdiv : (a / 64 * 64 + i) / 64 = a / 64 := by omega
      have hmod : (a / 64 * 64 + i) % 64 = i := by omega
      have hbit := hno (a / 64 * 64 + i) (by omega)
      rw [bit, hdiv, hmod, ne_eq, Bool.not_eq_true] at hbit
      simp [hbit]
    · simp [decide_eq_false hin]
  · rintro ⟨b, hb, hbit⟩ hzero
    have hdiv := div_eq_of_mem_range hw hb
    have hlsb := congrArg (fun x => x.getLsbD (b % 64)) hzero
    simp only [getLsbD_and, getLsbD_rangeMask (mod_lt b (by norm_num)) hs,
      decide_eq_true ((mem_range_iff hdiv).mpr hb), Bool.and_true] at hlsb
    rw [bit, hdiv, hlsb] at hbit
    simp at hbit

theorem bm0IsSet_eq (m : Bm0) (a : ℕ) : bm0IsSet m a = bm0IsAnySet m a 1 := by
  rw [bm0IsSet, bm0IsAnySet, rangeMask]
  rfl

theorem bm0IsSet_ne_zero_iff : bm0IsSet m a ≠ 0 ↔ bit m a = true := by
  rw [bm0IsSet_eq, bm0IsAnySet_ne_zero_iff (by norm_num) (by omega)]
  constructor
  · rintro ⟨b, hb, hbit⟩
    rwa [show a = b by omega]
  · exact fun h => ⟨a, by omega, h⟩

/-- Whole words are cleared. -/
theorem bit_bm0ClearWords {idx n : ℕ} (h : idx + n / 8 ≤ 64) (b : ℕ) : bit (bm0ClearWords m idx n) b
      = (bit m b && !decide (idx * 64 ≤ b ∧ b < (idx + n / 8) * 64)) := by
  rw [bm0ClearWords]
  generalize n / 8 = k at h ⊢
  induction k generalizing m idx with
  | zero =>
    have hno : ¬ (idx * 64 ≤ b ∧ b < (idx + 0) * 64) := by omega
    rw [decide_eq_false hno, Bool.not_false, Bool.and_true]
    rfl
  | succ k ih =>
    rw [List.range'_succ, List.foldl_cons, ih (by omega), bit_modifyWord (by omega)]
    by_cases hb : b / 64 = idx
    · have hin : idx * 64 ≤ b ∧ b < (idx + (k + 1)) * 64 := by omega
      rw [if_pos hb, decide_eq_true hin]
      simp
    · have hiff : (idx * 64 ≤ b ∧ b < (idx + (k + 1)) * 64)
          ↔ ((idx + 1) * 64 ≤ b ∧ b < (idx + 1 + k) * 64) := by omega
      rw [if_neg hb, decide_eq_decide.mpr hiff]

end Bits

end Valgrind.Drd
