import Valgrind.Cachegrind.Shape

/-!
# Cachegrind/IndexSafety — set numbers of the shadow caches

`cachesim_initcaches` gives every shadow cache the geometry of the result cache of its level, but
for one exception: `dip_3` and `dip_3a` shrink the shadow D1 caches to 32 sets, and with
`--overhead` the result D1 cache by three times as much.  Set numbers are still masked with the set
count of the result cache, so they leave the shadow caches as soon as the result cache has more sets
than they do; and if the overhead uses the result cache up, its mask is `-1` and lets every block
number through.

`set_numbers_in_range_iff` makes this exact, for all runs and all configurations.
-/

open Hoare Nat Set

namespace Valgrind.Cachegrind

variable {L : Type} {opts : Options} {g : Geometry} {a : Addr}

/-! ## Set counts -/

/-- A quotient by a positive number stays below a positive bound. -/
theorem tdiv_lt {a b M : ℤ} (hb : 0 ≤ b) (hM : 0 < M) (ha : a < M) : a.tdiv b < M := by
  rcases le_total 0 a with h0 | h0
  · rw [Int.tdiv_eq_ediv_of_nonneg h0]
    exact (Int.ediv_le_self b h0).trans_lt ha
  · have hneg : 0 ≤ (-a).tdiv b := Int.tdiv_nonneg (by omega) hb
    rw [Int.neg_tdiv] at hneg
    omega

/-- A set count is an `Int`. -/
theorem setCount_lt {c : CacheT} (hline : 0 ≤ c.lineSize) (hassoc : 0 ≤ c.assoc)
    (hsize : c.size < 2 ^ 31) : c.setCount < 2 ^ 31 :=
  tdiv_lt hassoc (by norm_num) (tdiv_lt hline (by norm_num) hsize)

theorem toInt_lt (n : ℤ) : toInt n < 2 ^ 31 := by
  have := Int.bmod_lt (x := n) (m := 2 ^ 32) (by norm_num)
  rw [toInt]
  omega

/-! ## Safe configurations -/

/-- The shadow D1 caches of a configuration, as they are built. -/
def shadowD1Of (opts : Options) (D1c : CacheT) : CacheT := shadowD1 opts (resultD1 opts D1c)

/-- The configurations whose set numbers stay in range: outside `dip_3` and `dip_3a` all, there
those whose result D1 cache has a set and no more sets than the shadow D1 caches. -/
def SafeConfig (opts : Options) (D1c : CacheT) : Prop :=
  opts.cacheReplacementPolicy.isDip3 = true →
    1 ≤ (resultD1 opts D1c).setCount
      ∧ (resultD1 opts D1c).setCount ≤ (shadowD1Of opts D1c).setCount

/-- Only the size of the D1 caches is changed. -/
theorem d1_dims (opts : Options) (D1c : CacheT) :
    ((resultD1 opts D1c).assoc = D1c.assoc ∧ (resultD1 opts D1c).lineSize = D1c.lineSize)
      ∧ (shadowD1Of opts D1c).assoc = D1c.assoc ∧ (shadowD1Of opts D1c).lineSize = D1c.lineSize := by
  unfold shadowD1Of shadowD1 resultD1
  split_ifs <;> exact ⟨⟨rfl, rfl⟩, rfl, rfl⟩

/-- **A safe configuration starts up with a safe shape.** -/
theorem safe_init {I1c D1c LLc : CacheT} {kI kD kL : ℕ} (hI : I1c.Accepted kI)
    (hD : D1c.Accepted kD) (hL : LLc.Accepted kL) (hIa : 1 ≤ I1c.assoc) (hDa : 1 ≤ D1c.assoc)
    (hLa : 1 ≤ LLc.assoc) (hsafe : SafeConfig opts D1c) {I1 D1 LL D1s : CacheT2}
    (hI1 : InitSpec I1c I1) (hD1 : InitSpec (resultD1 opts D1c) D1) (hLL : InitSpec LLc LL)
    (hD1s : InitSpec (shadowD1Of opts D1c) D1s) (r : RandomStream) :
    (Engine.init opts I1 D1 LL I1 D1s LL r).shape.Safe := by
  have hres : 1 ≤ D1.sets ∧ D1.sets ≤ D1s.sets := by
    rw [hD1.sets_eq, hD1s.sets_eq]
    cases hdip : opts.cacheReplacementPolicy.isDip3 with
    | true => exact hsafe hdip
    | false =>
      simp only [shadowD1Of, shadowD1, resultD1, hdip]
      exact ⟨one_le_sets hD hDa, le_refl _⟩
  have hI1s : 1 ≤ I1.sets := hI1.sets_eq ▸ one_le_sets hI hIa
  have hLLs : 1 ≤ LL.sets := hLL.sets_eq ▸ one_le_sets hL hLa
  have hI1a : 1 ≤ I1.assoc := hI1.assoc_eq ▸ hIa
  have hLLa : 1 ≤ LL.assoc := hLL.assoc_eq ▸ hLa
  have hD1a : 1 ≤ D1.assoc := by rwa [hD1.assoc_eq, (d1_dims opts D1c).1.1]
  have hD1sa : 1 ≤ D1s.assoc := by rwa [hD1s.assoc_eq, (d1_dims opts D1c).2.1]
  refine ⟨fun c => ?_, fun c => ?_, fun c => ?_, fun i l => ?_⟩
  · rcases c with (_ | _ | _) | ⟨_, _ | _ | _⟩
    exacts [hI1s, hres.1, hLLs, hI1s, hres.1.trans hres.2, hLLs]
  · rcases c with (_ | _ | _) | ⟨_, _ | _ | _⟩
    exacts [hI1a, hD1a, hLLa, hI1a, hD1sa, hLLa]
  · rcases c with (_ | _ | _) | ⟨_, _ | _ | _⟩
    exacts [hI1.setsMin1_eq, hD1.setsMin1_eq, hLL.setsMin1_eq, hI1.setsMin1_eq, hD1s.setsMin1_eq,
      hLL.setsMin1_eq]
  · cases l
    exacts [le_refl _, hres.2, le_refl _]

/-! ## Escaping set numbers -/

/-- The first byte of block `n`. -/
theorem block_shiftLeft {k : ℕ} (hk : g.lineSizeBits = k) (n : ℕ) : g.block (n <<< k) = n := by
  rw [Geometry.block, hk, Int.toNat_natCast, shiftLeft_shiftRight]

/-- One byte lies in one block. -/
theorem lastBlock_one (g : Geometry) {a : ℕ} (ha : a < 2 ^ 64) : g.lastBlock a 1 = g.block a := by
  have : (a + 1 + (2 ^ 64 - 1)) % 2 ^ 64 = a := by omega
  rw [Geometry.lastBlock, this]

/-- The mask as a natural number. -/
theorem setOf_eq (hmask : g.setsMin1 = g.sets - 1) (h1 : 1 ≤ g.sets)
    (hlt : g.sets < 2 ^ 31) (block : UWord) : g.setOf block = block &&& (g.sets - 1).toNat := by
  rw [Geometry.setOf, hmask, toULong_of_nonneg (by omega) (by omega)]
  refine mod_eq_of_lt (lt_of_le_of_lt and_le_right ?_)
  omega

/-- A block number below the mask's range that the mask lets through. -/
theorem exists_escaping_block (hmask : g.setsMin1 = g.sets - 1) (h0 : 0 ≤ g.sets)
    (hlt : g.sets < 2 ^ 31) {t : ℤ} (ht0 : 0 ≤ t) (ht : t < 2 ^ 31)
    (hbad : ¬ (1 ≤ g.sets ∧ g.sets ≤ t)) : ∃ n : ℕ, n < 2 ^ 31 ∧ t ≤ g.setOf n := by
  rcases eq_or_lt_of_le h0 with hz | hpos
  · refine ⟨t.toNat, by omega, ?_⟩
    have hall : toULong g.setsMin1 = 2 ^ 64 - 1 := by
      rw [hmask, ← hz]
      decide
    have hset : g.setOf t.toNat = t.toNat := by
      rw [Geometry.setOf, hall, and_two_pow_sub_one_eq_mod]
      omega
    omega
  · refine ⟨(g.sets - 1).toNat, by omega, ?_⟩
    have hset : g.setOf (g.sets - 1).toNat = (g.sets - 1).toNat := by
      rw [setOf_eq hmask hpos hlt, Nat.and_self]
    omega

/-- `dip_3` and `dip_3a` refer to the shadow D1 cache first. -/
theorem dip3_call_of_le {f : MissFn} (hf : f = .dip3 ∨ f = .dip3a) {e : Engine} {n : ℕ}
    (h : (e.caches (.shadow 0 .d1)).sets ≤ n) (tag : UWord) :
    f.call opts (.main .d1) n tag e = .error .setOutOfRange := by
  have hlru : Replacement.call opts .lru (.shadow 0 .d1) n tag e = .error .setOutOfRange :=
    Replacement.call_of_not_lt .lru (fun hlt => absurd hlt.1 (not_lt.mpr h)) tag
  rcases hf with rfl | rfl
  · exact bind_of_error (bind_of_error hlru)
  · exact bind_of_error (bind_of_error hlru)

/-- A one-byte reference to an escaping block. -/
theorem refIsMiss_of_escaping {f : MissFn} (hf : f = .dip3 ∨ f = .dip3a) {e : Engine}
    (ha : a < 2 ^ 64)
    (h : (e.caches (.shadow 0 .d1)).sets
      ≤ (e.caches (.main .d1)).setOf ((e.caches (.main .d1)).block a)) :
    cachesimRefIsMiss opts f (.main .d1) a 1 e = .error .setOutOfRange := by
  rw [cachesimRefIsMiss_of_eq (lastBlock_one _ ha).symm]
  exact dip3_call_of_le hf h _

/-- The function `dip_3` and `dip_3a` start with. -/
theorem initialMissFn_of_isDip3 (h : opts.cacheReplacementPolicy.isDip3 = true) :
    initialMissFn opts.cacheReplacementPolicy = .dip3
      ∨ initialMissFn opts.cacheReplacementPolicy = .dip3a := by
  cases hp : opts.cacheReplacementPolicy <;> simp_all [CgCachePolicy.isDip3, initialMissFn]

/-- A trace line touches neither the engine nor the pointer. -/
theorem traceLine_ok (tag : String) (l : L) (s : Sim L) :
    ∃ s', traceLine opts tag l s = .ok (⟨⟩, s') ∧ s'.engine = s.engine
      ∧ s'.setrefIsMiss = s.setrefIsMiss := by
  refine ⟨_, rfl, ?_⟩
  dsimp only
  split
  · exact ⟨rfl, rfl⟩
  · exact ⟨rfl, rfl⟩

section

variable [DecidableEq L] (hdip : opts.cacheReplacementPolicy.isDip3 = true)
  {s : Sim L} (hf : s.setrefIsMiss = .dip3 ∨ s.setrefIsMiss = .dip3a) (ha : a < 2 ^ 64)
  (h : (s.engine.caches (.shadow 0 .d1)).sets
    ≤ (s.engine.caches (.main .d1)).setOf ((s.engine.caches (.main .d1)).block a))
include hdip hf ha h

/-- **A data reference to an escaping block leaves the shadow caches.** -/
theorem D1Doref_of_escaping (m : CCRef L) : cachesimD1Doref opts m a 1 s = .error .setOutOfRange := by
  have href : ∀ s' : Sim L, s'.setrefIsMiss = s.setrefIsMiss → s'.engine.caches = s.engine.caches →
      refIsMiss opts (.main .d1) a 1 s' = .error .setOutOfRange := by
    intro s' hp hc
    rw [refIsMiss, bind_of_ok (get_run s'), onEngine, hp,
      refIsMiss_of_escaping hf ha (by rw [hc]; exact h)]
  rw [cachesimD1Doref, bind_of_ok (a := ⟨⟩) rfl]
  cases hp : opts.cacheReplacementPolicy with
  | dip3Policy | dip3AgeingPolicy =>
    have hprep : (prepareDref opts a 1 : SimM L PUnit) = pure ⟨⟩ := by rw [prepareDref, hp]
    dsimp only
    rw [hprep, bind_of_ok (a := ⟨⟩) rfl, dataRef, bind_of_ok (a := ⟨⟩) rfl]
    exact bind_of_error (href _ rfl rfl)
  | _ => simp [hp, CgCachePolicy.isDip3] at hdip

/-- …and so a one-byte read of an escaping block does. -/
theorem runCalls_of_escaping (n : InstrInfo L) :
    runCalls opts [.log0Ir1Dr n a 1] s = .error .setOutOfRange := by
  obtain ⟨s', hs', he, hp⟩ : ∃ s', traceLine opts "L" n.parent s = .ok (⟨⟩, s')
      ∧ s'.engine = s.engine ∧ s'.setrefIsMiss = s.setrefIsMiss := traceLine_ok "L" n.parent s
  refine bind_of_error ((bind_of_ok hs').trans (bind_of_error ?_))
  exact D1Doref_of_escaping hdip (by rw [hp]; exact hf) ha (by rw [he]; exact h) _

end

/-! ## The exact condition -/

/-- **Set numbers stay in range iff the configuration is safe**: over all runs from start-up, for
all configurations `check_cache` accepts with at least one way.  A set number in range stays inside
the tag array for every way (`CacheT2.row_le`). -/
theorem set_numbers_in_range_iff [DecidableEq L] [Inhabited L] {I1c D1c LLc : CacheT}
    (hI : checkCache I1c = none) (hD : checkCache D1c = none) (hL : checkCache LLc = none)
    (hIint : I1c.FitsInt) (hDint : D1c.FitsInt) (hLint : LLc.FitsInt) (hIa : 1 ≤ I1c.assoc)
    (hDa : 1 ≤ D1c.assoc) (hLa : 1 ≤ LLc.assoc) {loc : L → CodeLoc} {r : RandomStream}
    {s₀ : Sim L} (hinit : cachesimInitcaches opts I1c D1c LLc loc r = .ok s₀) :
    (∀ calls : List (HelperCall L), runCalls opts calls s₀ ≠ .error .setOutOfRange)
      ↔ SafeConfig opts D1c := by
  obtain ⟨kI, hIacc⟩ := accepted_of_checkCache hIint hI
  obtain ⟨kD, hDacc⟩ := accepted_of_checkCache hDint hD
  obtain ⟨kL, hLacc⟩ := accepted_of_checkCache hLint hL
  obtain ⟨I1, D1, LL, D1s, hI1, hD1, hLL, hD1s, -, rfl⟩ := initcaches_ok hinit
  have hspec := initSpec_of_ok hD1
  have hspecs := initSpec_of_ok hD1s
  constructor
  · intro hrun hdip
    by_contra hbad
    have hline : 0 ≤ D1c.lineSize := by rw [hDacc.lineSize_eq]; positivity
    obtain ⟨⟨hassoc, hsize⟩, hassoc', hsize'⟩ := d1_dims opts D1c
    have hlt : D1.sets < 2 ^ 31 := by
      rw [hspec.sets_eq]
      refine setCount_lt (hsize ▸ hline) (by omega) ?_
      unfold resultD1
      split
      · exact toInt_lt _
      · exact hDint.size_lt
    have hlts : D1s.sets < 2 ^ 31 := by
      rw [hspecs.sets_eq]
      refine setCount_lt (hsize' ▸ hline) (hassoc' ▸ by omega) ?_
      rw [shadowD1, if_pos hdip]
      exact toInt_lt _
    have hbits : D1.lineSizeBits = kD :=
      hspec.lineSizeBits_of_pow (hsize.trans hDacc.lineSize_eq)
        (by have := hDacc.lt; omega)
    obtain ⟨n, hn, hesc⟩ := exists_escaping_block hspec.setsMin1_eq hspec.sets_nonneg hlt
      hspecs.sets_nonneg hlts (by rw [hspec.sets_eq, hspecs.sets_eq]; exact hbad)
    have ha : n <<< kD < 2 ^ 64 := by
      rw [shiftLeft_eq]
      calc n * 2 ^ kD < 2 ^ 31 * 2 ^ kD := mul_lt_mul_of_pos_right hn (by positivity)
        _ ≤ 2 ^ 31 * 2 ^ 31 :=
          Nat.mul_le_mul_left _ (Nat.pow_le_pow_right (by norm_num) hDacc.lt.le)
        _ < 2 ^ 64 := by norm_num
    refine hrun _ (runCalls_of_escaping hdip (initialMissFn_of_isDip3 hdip) ha ?_ ⟨0, 1, default⟩)
    change D1s.sets ≤ D1.setOf (D1.block (n <<< kD))
    rw [block_shiftLeft hbits]
    exact hesc
  · intro hsafe calls herr
    have hsh := safe_init hIacc hDacc hLacc hIa hDa hLa hsafe (initSpec_of_ok hI1) hspec
      (initSpec_of_ok hLL) hspecs r
    have hreg := regular_init opts I1 D1 LL I1 D1s LL r
    exact (simKeeps_runCalls hreg calls).error (simShape_start opts _ loc) herr hsh rfl

theorem window_lt : (1024 : ℤ) < 2 ^ 31 := by decide

/-- `dip_3` without the overhead option. -/
def dip3Options : Options where
  cacheReplacementPolicy := .dip3Policy
  bipThrottleParameter := 0
  switchingThresholdParameter := 0
  windowCounter := 1024
  windowCounter_lt := window_lt
  overheadAllowed := false
  cloCFile := ""
  canOpen := fun _ => false
  loZeroBits := 0

/-- The condition holds of `dip_3` over a D1 cache of 32 sets, and no run leaves a cache. -/
theorem set_numbers_in_range_dip3 : ∃ s₀ : Sim Unit,
    cachesimInitcaches dip3Options ⟨32, 1, 16⟩ ⟨512, 1, 16⟩ ⟨64, 2, 16⟩ (fun _ => ⟨"a", "f", 1⟩)
        lcgStream = .ok s₀
      ∧ ∀ calls, runCalls dip3Options calls s₀ ≠ .error .setOutOfRange := by
  refine ⟨_, (and_iff_left_of_imp fun hinit => (set_numbers_in_range_iff (by decide) (by decide)
    (by decide) ?_ ?_ ?_ (by decide) (by decide) (by decide) hinit).mpr fun _ => by decide).mpr rfl⟩
  · exact ⟨by decide, by decide, by decide⟩
  · exact ⟨by decide, by decide, by decide⟩
  · exact ⟨by decide, by decide, by decide⟩

/-- **A default D1 cache is not safe for `dip_3`**: 32 KiB, 8 ways, 64-byte lines make 64 sets, and
a read of one byte in set 63 leaves the shadow cache of 32. -/
theorem dip3_set_number_escapes : ∃ s₀ : Sim Unit,
    cachesimInitcaches dip3Options ⟨32768, 8, 64⟩ ⟨32768, 8, 64⟩ ⟨262144, 8, 64⟩
        (fun _ => ⟨"a", "f", 1⟩) lcgStream = .ok s₀
      ∧ runCalls dip3Options [.log0Ir1Dr ⟨4096, 4, ()⟩ 4032 1] s₀ = .error .setOutOfRange :=
  exists_of_faults dip3Options (by decide +kernel)

/-! ## The sets in use -/

/-- A mask lets every number up to itself through iff its bits are all ones. -/
theorem forall_le_exists_and_iff {m : ℕ} : (∀ n ≤ m, ∃ b, b &&& m = n) ↔ ∃ k, m + 1 = 2 ^ k := by
  constructor
  · intro h
    rcases Nat.eq_zero_or_pos m with rfl | hm
    · exact ⟨0, rfl⟩
    have hle : 2 ^ log 2 m ≤ m := pow_log_le_self 2 hm.ne'
    have hlt : m < 2 ^ (log 2 m + 1) := lt_pow_succ_log_self (by norm_num) m
    -- the number below the leading bit of the mask has to pass
    obtain ⟨b, hb⟩ := h (2 ^ log 2 m - 1) (by omega)
    have hmod : m % 2 ^ log 2 m = 2 ^ log 2 m - 1 := by
      rw [← Nat.and_two_pow_sub_one_eq_mod, ← hb, Nat.and_comm b, ← Nat.and_assoc, Nat.and_self]
    rw [pow_succ] at hlt
    rw [mod_eq_sub_mod hle, mod_eq_of_lt (by omega)] at hmod
    exact ⟨log 2 m + 1, by rw [pow_succ]; omega⟩
  · rintro ⟨k, hk⟩ n hn
    refine ⟨n, ?_⟩
    rw [show m = 2 ^ k - 1 by omega, and_two_pow_sub_one_eq_mod, mod_eq_of_lt (by omega)]

/-- The number of lines in the sets that blocks are mapped to. -/
noncomputable def capacity (c : CacheT2) : ℕ := (Set.range c.setOf).ncard * c.ways

/-- **Every set of an accepted cache is used iff the set count is a power of two**; every block goes
to a set in any case. -/
theorem every_set_used_iff (config : CacheT) (hint : config.FitsInt)
    (hcheck : checkCache config = none) (hassoc : 1 ≤ config.assoc) :
    ∃ c, cachesimInitcache config = .ok c
      ∧ ((∀ block, (c.setOf block : ℤ) < c.sets)
          ∧ (∀ n : ℕ, (n : ℤ) < c.sets → ∃ block, c.setOf block = n)
          ∧ (capacity c : ℤ) = c.sets * c.assoc
        ↔ ∃ k : ℕ, config.setCount = 2 ^ k) := by
  obtain ⟨k, hacc⟩ := accepted_of_checkCache hint hcheck
  have hline : 0 < config.lineSize := by rw [hacc.lineSize_eq]; positivity
  have h1 := one_le_sets hacc hassoc
  obtain ⟨c, hc⟩ := exists_initcache_ok hline.ne' (by omega) (by omega)
  have hspec := initSpec_of_ok hc
  have hlt := setCount_lt hline.le (by omega) hint.size_lt
  rw [← hspec.sets_eq] at h1 hlt ⊢
  have hset := setOf_eq hspec.setsMin1_eq h1 hlt
  have hinto := Geometry.setOf_lt h1 hspec.setsMin1_eq
  have hmask : (∀ n : ℕ, (n : ℤ) < c.sets → ∃ block, c.setOf block = n)
      ↔ ∃ k : ℕ, c.sets = 2 ^ k := by
    have hsucc : (c.sets : ℤ) = ((c.sets - 1).toNat + 1 : ℕ) := by omega
    rw [hsucc]
    simp only [hset, Nat.cast_lt, Nat.lt_succ_iff, forall_le_exists_and_iff]
    norm_cast
  refine ⟨c, hc, fun h => hmask.mp h.2.1, fun hpow => ⟨hinto, hmask.mpr hpow, ?_⟩⟩
  have hrange : range c.setOf = Set.Iio c.sets.toNat := by
    ext n
    refine ⟨?_, fun hn => hmask.mpr hpow n (by rw [mem_Iio] at hn; omega)⟩
    rintro ⟨block, rfl⟩
    have := hinto block
    rw [mem_Iio]
    omega
  have hways := hspec.assoc_eq
  rw [capacity, hrange, ncard_eq_toFinset_card', toFinset_Iio, card_Iio, CacheT2.ways]
  push_cast
  rw [Int.toNat_of_nonneg (by omega), Int.toNat_of_nonneg (by omega)]

/-- Two sets are both used. -/
theorem every_set_used_two : ∃ c, cachesimInitcache ⟨32, 1, 16⟩ = .ok c
    ∧ (capacity c : ℤ) = c.sets * c.assoc := by
  obtain ⟨c, hc, hiff⟩ := every_set_used_iff ⟨32, 1, 16⟩
    ⟨by decide, by decide, by decide⟩ (by decide) (by decide)
  exact ⟨c, hc, (hiff.mpr ⟨1, by decide⟩).2.2⟩

/-- **Of three sets, which `check_cache` accepts, the one in the middle is never used.** -/
theorem middle_set_unused : checkCache ⟨48, 1, 16⟩ = none
    ∧ ∃ c, cachesimInitcache ⟨48, 1, 16⟩ = .ok c ∧ c.sets = 3 ∧ ∀ block, c.setOf block ≠ 1 := by
  obtain ⟨c, hc⟩ : ∃ c, cachesimInitcache ⟨48, 1, 16⟩ = .ok c := ⟨_, rfl⟩
  have hspec := initSpec_of_ok hc
  have hsets : c.sets = 3 := by rw [hspec.sets_eq]; decide
  refine ⟨by decide, c, hc, hsets, fun block hone => ?_⟩
  rw [setOf_eq hspec.setsMin1_eq (by omega) (by omega), hsets] at hone
  have hbit := congrArg (testBit · 0) hone
  simp at hbit

end Valgrind.Cachegrind
