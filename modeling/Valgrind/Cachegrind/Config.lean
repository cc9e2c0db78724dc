import Valgrind.Core.LibcBase

/-!
# Cachegrind/Config — `cg_arch.h`, `cg_arch.c`: cache configurations and the policy options

A `cache_t` is three `Int`s.  `check_cache` vets the line size, the size and the associativity from
above; the power-of-two test on the set count is commented out in the source, so any positive set
count passes, and nothing bounds the associativity from below.
-/

namespace Valgrind.Cachegrind

/-! ## Policies and options -/

/-- `Cg_CachePolicy`. -/
inductive CgCachePolicy
  | lruPolicy | randomPolicy | fifoPolicy | bipPolicy | lipPolicy | dipPolicy | dip3Policy
  | dip3AgeingPolicy
  | fixedWindow | slidingWindow | adaptative | naive | online | cacheDueling | learning
  deriving DecidableEq, Repr

/-- The approaches that run all four shadow policies next to the result caches. -/
def CgCachePolicy.runsShadows : CgCachePolicy → Bool
  | .fixedWindow | .slidingWindow | .online | .learning => true
  | _ => false

/-- The two policies whose shadow data caches `cachesim_initcaches` shrinks to 32 sets. -/
def CgCachePolicy.isDip3 : CgCachePolicy → Bool
  | .dip3Policy | .dip3AgeingPolicy => true
  | _ => false

/-- The globals `cg_post_clo_init` sets from the command line and never changes again. -/
structure Options where
  /-- `cache_replacement_policy`, equal to `current_cache_replacement_policy` from then on. -/
  cacheReplacementPolicy : CgCachePolicy
  /-- `bip_throttle_parameter`: a `float` widened to `double`, hence an exact rational. -/
  bipThrottleParameter : ℚ
  switchingThresholdParameter : ℤ
  windowCounter : ℤ
  /-- `window_counter` is an `int`. -/
  windowCounter_lt : windowCounter < 2 ^ 31
  overheadAllowed : Bool
  /-- `clo_c_file`: accesses from files whose name contains it are traced to standard output. -/
  cloCFile : String
  /-- Whether the file system lets the learning approach create its `n`-th file. -/
  canOpen : ℕ → Bool
  /-- `N_IADDR_LO_ZERO_BITS` of the platform. -/
  loZeroBits : ℕ

/-! ## `cache_t` and `check_cache` -/

/-- `cache_t`. -/
structure CacheT where
  size : ℤ
  assoc : ℤ
  lineSize : ℤ
  deriving DecidableEq, Repr

/-- The three fields of a `cache_t` are C `Int`s. -/
structure CacheT.FitsInt (c : CacheT) : Prop where
  size_lt : c.size < 2 ^ 31
  assoc_lt : c.assoc < 2 ^ 31
  lineSize_lt : c.lineSize < 2 ^ 31

/-- `MIN_LINE_SIZE`. -/
def minLineSize : ℤ := 16

/-- `check_cache`: `none` if the configuration is fine, else the message. -/
def checkCache (cache : CacheT) : Option String :=
  if vgLog2 (toUInt cache.lineSize) = -1 then
    some "Cache line size is not a power of two.\n"
  else if cache.lineSize < minLineSize then
    some "Cache line size is too small.\n"
  else if cache.size ≤ cache.lineSize then
    some "Cache size <= line size.\n"
  else if cache.assoc > cache.size.tdiv cache.lineSize then
    some "Cache associativity > (size / line size).\n"
  else none

/-- What `check_cache` establishes, on `Int`s: the line size is `2 ^ k` with `4 ≤ k ≤ 30`, and at
least one set of `assoc` lines fits the size. -/
structure CacheT.Accepted (c : CacheT) (k : ℕ) : Prop where
  lineSize_eq : c.lineSize = 2 ^ k
  four_le : 4 ≤ k
  lt : k < 31
  lineSize_lt_size : c.lineSize < c.size
  assoc_le : c.assoc ≤ c.size / c.lineSize

theorem checkCache_eq_none {c : CacheT} (h : checkCache c = none) :
    vgLog2 (toUInt c.lineSize) ≠ -1 ∧ 16 ≤ c.lineSize ∧ c.lineSize < c.size
      ∧ c.assoc ≤ c.size.tdiv c.lineSize := by
  rw [checkCache] at h
  split at h
  · simp at h
  split at h
  · simp at h
  split at h
  · simp at h
  split at h
  · simp at h
  rename_i h1 h2 h3 h4
  rw [minLineSize] at h2
  exact ⟨h1, by omega, by omega, by omega⟩

/-- **An accepted configuration has a power-of-two line size and at least one set.** -/
theorem accepted_of_checkCache {c : CacheT} (hint : c.FitsInt) (h : checkCache c = none) :
    ∃ k, c.Accepted k := by
  obtain ⟨hlog, h16, hsize, hassoc⟩ := checkCache_eq_none h
  have hpos : 0 ≤ c.lineSize := by omega
  have hlt := hint.lineSize_lt
  obtain ⟨k, hk, -, hpow⟩ := vgLog2_eq hlog
  rw [toUInt_of_nonneg hpos (by omega)] at hpow
  have hline : c.lineSize = 2 ^ k := by
    have : ((c.lineSize.toNat : ℕ) : ℤ) = ((2 ^ k : ℕ) : ℤ) := by rw [hpow]
    rw [Int.toNat_of_nonneg hpos] at this
    exact_mod_cast this
  refine ⟨k, hline, ?_, ?_, hsize, ?_⟩
  · by_contra hk4
    have h8 : (2 : ℤ) ^ k ≤ 2 ^ 3 := pow_le_pow_right₀ (by norm_num) (by omega)
    omega
  · by_contra hk31
    have hk' : k = 31 := by omega
    rw [hline, hk'] at hlt
    exact absurd hlt (by norm_num)
  · rwa [Int.tdiv_eq_ediv_of_nonneg (by omega)] at hassoc

end Valgrind.Cachegrind
