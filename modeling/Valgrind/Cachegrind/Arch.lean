import Valgrind.Cachegrind.Config

/-!
# Cachegrind/Arch — `cg_arch.c`: an LL cache with a power of two of sets

`maybe_tweak_LLc` rounds the number of sets down to a power of two and makes up for it with the
associativity (`maybeTweakLLc_spec`).
-/

namespace Valgrind.Cachegrind

/-- `floor_power_of_2`. -/
def floorPowerOf2 (x : ℕ) : ℕ :=
  let x := x ||| x >>> 1
  let x := x ||| x >>> 2
  let x := x ||| x >>> 4
  let x := x ||| x >>> 8
  let x := x ||| x >>> 16
  x - x >>> 1

/-- `old_nSets`. -/
def CacheT.nSets (c : CacheT) : ℕ := toUInt c.size / (toUInt c.assoc * toUInt c.lineSize % 2 ^ 32)

/-- The new associativity and size.  `VG_(log2_64)` is `VG_(log2)` on a `UInt`, and the `Double`s are
exact: a product of less than 53 bits, divided by a power of two. -/
def newAssocAndSize (oldAssoc oldLineSize oldNSets : ℕ) : Except Abort (ℕ × ℕ) :=
  if vgLog2 oldNSets ≠ -1 then .ok (oldAssoc, oldLineSize * oldAssoc * oldNSets % 2 ^ 32)
  else do
    let newNSets := floorPowerOf2 oldNSets
    vgAssert (0 < newNSets ∧ newNSets < oldNSets)
    let factor : ℚ := oldNSets / newNSets
    vgAssert (1 ≤ factor)
    let newAssoc := ⌊1 / 2 + factor * oldAssoc⌋₊ % 2 ^ 32
    vgAssert (oldAssoc ≤ newAssoc)
    return (newAssoc, oldLineSize * newAssoc * newNSets % 2 ^ 32)

/-- `maybe_tweak_LLc`. -/
def maybeTweakLLc (LLc : CacheT) : Except Abort CacheT :=
  if LLc.size = 0 ∨ LLc.assoc = 0 ∨ LLc.lineSize = 0 then .ok LLc
  else do
    vgAssert (0 < LLc.size ∧ 0 < LLc.assoc ∧ 0 < LLc.lineSize)
    if toUInt LLc.assoc * toUInt LLc.lineSize % 2 ^ 32 = 0 then throw .arithmetic
    else if LLc.nSets = 0 then return LLc
    else do
      let (newAssoc, newSize) ←
        newAssocAndSize (toUInt LLc.assoc) (toUInt LLc.lineSize) LLc.nSets
      if newSize = toUInt LLc.size ∧ newAssoc = toUInt LLc.assoc then return LLc
      else return ⟨toInt newSize, toInt newAssoc, LLc.lineSize⟩

/-! ## The power of two -/

/-- The `m` bits from `k` down are ones; after a shift by `m`, twice as many are. -/
theorem smear {k m x : ℕ} (hlt : x < 2 ^ (k + 1)) (h : ∀ j ≤ k, k < j + m → x.testBit j) :
    x ||| x >>> m < 2 ^ (k + 1) ∧ ∀ j ≤ k, k < j + 2 * m → (x ||| x >>> m).testBit j := by
  refine ⟨Nat.or_lt_two_pow hlt ((Nat.shiftRight_le x m).trans_lt hlt), fun j hj hk => ?_⟩
  rw [Nat.testBit_or, Nat.testBit_shiftRight, Bool.or_eq_true]
  by_cases hm : k < j + m
  · exact .inl (h j hj hm)
  · exact .inr (h (m + j) (by omega) (by omega))

theorem floorPowerOf2_eq {k x : ℕ} (hk : k < 32) (hlo : 2 ^ k ≤ x) (hlt : x < 2 ^ (k + 1)) :
    floorPowerOf2 x = 2 ^ k := by
  have htop : ∀ j ≤ k, k < j + 1 → x.testBit j := fun j hj hjk => by
    obtain rfl : j = k := by omega
    exact Nat.testBit_of_two_pow_le_and_two_pow_add_one_gt hlo hlt
  obtain ⟨hlt, htop⟩ := smear hlt htop
  obtain ⟨hlt, htop⟩ := smear hlt htop
  obtain ⟨hlt, htop⟩ := smear hlt htop
  obtain ⟨hlt, htop⟩ := smear hlt htop
  obtain ⟨hlt, htop⟩ := smear hlt htop
  rw [floorPowerOf2]
  generalize _ ||| _ >>> 16 = y at *
  have hones : y = 2 ^ (k + 1) - 1 := Nat.eq_of_testBit_eq fun j => by
    rw [Nat.testBit_two_pow_sub_one]
    by_cases hj : j ≤ k
    · rw [htop j hj (by omega), decide_eq_true (by omega)]
    · rw [decide_eq_false (by omega)]
      exact Nat.testBit_lt_two_pow (hlt.trans_le (Nat.pow_le_pow_right two_pos (by omega)))
  rw [hones, Nat.shiftRight_one, pow_succ]
  have := Nat.two_pow_pos k
  omega

/-! ## The new cache -/

theorem toUInt_natCast {m : ℕ} (h : m < 2 ^ 32) : toUInt m = m := by
  rw [toUInt_of_nonneg (Int.natCast_nonneg m) (by exact_mod_cast h), Int.toNat_natCast]

variable {a l n z k : ℕ}

theorem nSets_mk (hz : z < 2 ^ 31) (ha : 0 < a) (hl : 0 < l) (hal : a * l < 2 ^ 32) :
    (⟨z, a, l⟩ : CacheT).nSets = z / (a * l) := by
  rw [CacheT.nSets, toUInt_natCast (by omega), toUInt_natCast (by nlinarith),
    toUInt_natCast (by nlinarith), Nat.mod_eq_of_lt hal]

/-- The associativity with which `2 ^ k` sets have room for what `n` sets of `a` lines have. -/
def scaledAssoc (a n k : ℕ) : ℕ := ⌊(1 / 2 : ℚ) + n * a / 2 ^ k⌋₊

theorem scaledAssoc_two_pow (a k : ℕ) : scaledAssoc a (2 ^ k) k = a := by
  rw [scaledAssoc, Nat.cast_pow, Nat.cast_ofNat, mul_div_cancel_left₀ _ (by positivity),
    Nat.floor_add_natCast (by norm_num)]
  norm_num

theorem le_scaledAssoc (h : 2 ^ k ≤ n) : a ≤ scaledAssoc a n k := by
  have hq : (2 ^ k : ℚ) ≤ n := by exact_mod_cast h
  refine Nat.le_floor ?_
  have : (a : ℚ) ≤ n * a / 2 ^ k := by
    rw [le_div_iff₀ (by positivity), mul_comm]
    gcongr
  linarith

theorem newAssocAndSize_eq (hk : k < 32) (hlo : 2 ^ k ≤ n) (hhi : n < 2 ^ (k + 1)) (hl : 0 < l)
    (hfit : l * scaledAssoc a n k * 2 ^ k < 2 ^ 32) :
    newAssocAndSize a l n = .ok (scaledAssoc a n k, l * scaledAssoc a n k * 2 ^ k) := by
  rw [newAssocAndSize]
  split_ifs with hlog
  · obtain ⟨i, -, -, rfl⟩ := vgLog2_eq hlog
    obtain rfl : k = i := Nat.le_antisymm ((Nat.pow_le_pow_iff_right one_lt_two).mp hlo)
      (Nat.lt_succ_iff.mp ((Nat.pow_lt_pow_iff_right one_lt_two).mp hhi))
    rw [scaledAssoc_two_pow] at hfit ⊢
    rw [Nat.mod_eq_of_lt hfit]
  · have hne : 2 ^ k ≠ n := by
      rintro rfl
      exact hlog (by rw [vgLog2_two_pow hk]; omega)
    have hpos := Nat.two_pow_pos k
    have hscaled : ⌊1 / 2 + (n / (2 ^ k : ℕ) : ℚ) * a⌋₊ = scaledAssoc a n k := by
      rw [scaledAssoc, div_mul_eq_mul_div, Nat.cast_pow, Nat.cast_ofNat]
    have hlt : scaledAssoc a n k < 2 ^ 32 := by nlinarith [Nat.mul_pos hl hpos]
    have hfactor : (1 : ℚ) ≤ n / (2 ^ k : ℕ) := by
      rw [le_div_iff₀ (by exact_mod_cast hpos), one_mul]
      exact_mod_cast hlo
    dsimp only
    rw [floorPowerOf2_eq hk hlo hhi, vgAssert_bind ⟨hpos, by omega⟩, vgAssert_bind hfactor,
      hscaled, Nat.mod_eq_of_lt hlt, vgAssert_bind (le_scaledAssoc hlo), Nat.mod_eq_of_lt hfit]
    rfl

/-- The cache as three natural numbers. -/
theorem maybeTweakLLc_mk (hz : 0 < z) (hz' : z < 2 ^ 31) (ha : 0 < a) (hl : 0 < l)
    (hal : a * l < 2 ^ 32) (hn : z / (a * l) = n) (hlo : 2 ^ k ≤ n) (hhi : n < 2 ^ (k + 1)) {a' : ℕ}
    (ha' : scaledAssoc a n k = a') (hfit : l * a' * 2 ^ k < 2 ^ 31) :
    maybeTweakLLc ⟨z, a, l⟩ = .ok ⟨(l * a' * 2 ^ k : ℕ), a', l⟩ := by
  have hpos := Nat.two_pow_pos k
  have hk : k < 32 := by
    refine (Nat.pow_lt_pow_iff_right one_lt_two).mp ((hlo.trans ?_).trans_lt (hz'.trans (by norm_num)))
    exact hn ▸ Nat.div_le_self z (a * l)
  have hnew := newAssocAndSize_eq (a := a) hk hlo hhi hl (by rw [ha']; omega)
  rw [maybeTweakLLc, if_neg (by simp; omega), vgAssert_bind (by simp; omega)]
  dsimp only
  rw [nSets_mk hz' ha hl hal, hn, toUInt_natCast (by nlinarith), toUInt_natCast (by nlinarith),
    toUInt_natCast (by omega), Nat.mod_eq_of_lt hal, if_neg (Nat.mul_pos ha hl).ne',
    if_neg (by omega), hnew, ha', ok_bind]
  have hlt : a' < 2 ^ 31 := by nlinarith [Nat.mul_pos hl hpos]
  dsimp only
  split_ifs with h
  · rw [h.1, h.2]
    rfl
  · rw [toInt, toInt, Int.bmod_eq_of_le (by omega) (by omega),
      Int.bmod_eq_of_le (by omega) (by omega)]
    rfl

/-- **The LL cache gets a power of two of sets**, the largest that is not above the number it had,
and its associativity is scaled accordingly, to the nearest.  If the new size is an `Int`, the cache
is of that size, and is left alone from then on. -/
theorem maybeTweakLLc_spec (LLc : CacheT) (hint : LLc.FitsInt) (hsize : 0 < LLc.size)
    (hassoc : 0 < LLc.assoc) (hline : 0 < LLc.lineSize) (hprod : LLc.assoc * LLc.lineSize < 2 ^ 32)
    (hsets : 1 ≤ LLc.nSets) :
    ∃ k : ℕ, ∃ assoc : ℤ, 2 ^ k ≤ LLc.nSets ∧ LLc.nSets < 2 ^ (k + 1)
      ∧ assoc = ⌊(1 / 2 : ℚ) + LLc.nSets * LLc.assoc / 2 ^ k⌋ ∧ LLc.assoc ≤ assoc
      ∧ (LLc.lineSize * assoc * 2 ^ k < 2 ^ 31 → ∃ c : CacheT, maybeTweakLLc LLc = .ok c
        ∧ c = ⟨LLc.lineSize * assoc * 2 ^ k, assoc, LLc.lineSize⟩ ∧ c.nSets = 2 ^ k
        ∧ maybeTweakLLc c = .ok c) := by
  obtain ⟨size, assoc, lineSize⟩ := LLc
  have hlt := hint.size_lt
  dsimp only at *
  lift size to ℕ using hsize.le with z
  lift assoc to ℕ using hassoc.le with a
  lift lineSize to ℕ using hline.le with l
  norm_cast at *
  rw [nSets_mk hlt hassoc hline hprod] at hsets ⊢
  generalize hn : z / (a * l) = n at *
  have hlo := Nat.pow_log_le_self 2 (Nat.one_le_iff_ne_zero.mp hsets)
  have hhi := Nat.lt_pow_succ_log_self one_lt_two n
  generalize Nat.log 2 n = k at *
  obtain ⟨a', ha'⟩ : ∃ a', scaledAssoc a n k = a' := ⟨_, rfl⟩
  have hle : a ≤ a' := ha' ▸ le_scaledAssoc hlo
  refine ⟨k, a', hlo, hhi, ?_, by exact_mod_cast hle, fun hfit => ?_⟩
  · rw [← ha', scaledAssoc, Int.natCast_floor_eq_floor (by positivity)]
    simp
  norm_cast at hfit
  refine ⟨_, maybeTweakLLc_mk hsize hlt hassoc hline hprod hn hlo hhi ha' hfit, by push_cast; rfl, ?_⟩
  have hpos : 0 < l * a' := Nat.mul_pos hline (hassoc.trans_le hle)
  have hdiv : l * a' * 2 ^ k / (a' * l) = 2 ^ k := by
    rw [mul_comm a', Nat.mul_div_cancel_left _ hpos]
  have hal : a' * l < 2 ^ 32 := by nlinarith [Nat.two_pow_pos k]
  exact ⟨(nSets_mk hfit (hassoc.trans_le hle) hline hal).trans hdiv,
    maybeTweakLLc_mk (Nat.mul_pos hpos (Nat.two_pow_pos k)) hfit (hassoc.trans_le hle) hline hal hdiv
      le_rfl (Nat.pow_lt_pow_succ one_lt_two) (scaledAssoc_two_pow a' k) hfit⟩

theorem maybeTweakLLc_192_sets : (⟨6144, 2, 16⟩ : CacheT).nSets = 192
    ∧ ∃ k : ℕ, ∃ assoc : ℤ, 2 ^ k ≤ 192 ∧ 192 < 2 ^ (k + 1) ∧ 2 ≤ assoc := by
  obtain ⟨k, assoc, hlo, hhi, -, hle, -⟩ := maybeTweakLLc_spec ⟨6144, 2, 16⟩
    ⟨by decide, by decide, by decide⟩ (by decide) (by decide) (by decide) (by decide) (by decide)
  exact ⟨by decide, k, assoc, hlo, hhi, hle⟩

end Valgrind.Cachegrind
