import Valgrind.Foundations.Slice
import Valgrind.Cachegrind.Config

/-!
# Cachegrind/Cache — `cache_t2` and `cachesim_initcache`

A simulated cache is its geometry plus the flat array `tags` of `sets * assoc` words; set number
`n` is the row of `assoc` words from `n * assoc` on.  The array length is a field of the structure,
so a set number below `sets` never leaves the array (`row_le`).

`VG_(log2)` returns an `Int`, so the test `isInteger(VG_(log2)(sets))` of the source always
succeeds: a set count that is not a power of two gets the mask `sets - 1` like any other.
-/

open Slice Int

namespace Valgrind.Cachegrind

/-! ## Faults -/

/-- Where the simulator leaves the defined behaviour of its source, or stops. -/
inductive Fault
  /-- A set number that no set of the cache has: the reference leaves `tags`. -/
  | setOutOfRange
  /-- An index outside a miss history or outside the array a cache is copied into. -/
  | heapOutOfRange
  /-- A text longer than the buffer it is printed into. -/
  | bufferOverrun
  /-- A counter written through a pointer that was never set. -/
  | nullPointer
  /-- `VG_(tool_panic)`: "item straddles more than two cache sets". -/
  | straddle
  | divisionByZero
  /-- An allocation of a negative size. -/
  | outOfMemory
  /-- `tl_assert` fails. -/
  | assertion
  deriving DecidableEq, Repr

/-! ## `cache_t2` -/

/-- The fields of a `cache_t2` that no reference changes. -/
structure Geometry where
  size : ℤ
  assoc : ℤ
  lineSize : ℤ
  sets : ℤ
  setsMin1 : ℤ
  lineSizeBits : ℤ
  tagShift : ℤ
  descLine : String
  deriving DecidableEq, Repr

/-- `cache_t2`.  `tags_miss` is left out: it is cleared and copied but nothing reads it. -/
structure CacheT2 extends Geometry where
  tags : List UWord
  tags_length : tags.length = (sets * assoc).toNat
  deriving Repr

namespace CacheT2

/-- The number of ways, as the loop bound of the set functions. -/
def ways (c : CacheT2) : ℕ := c.assoc.toNat

/-- `&(c->tags[set_no * c->assoc])`, read as the row it starts. -/
def row (c : CacheT2) (setNo : ℕ) : List UWord := slice c.tags (setNo * c.ways) c.ways

/-- The cache with a row written back in place. -/
def writeRow (c : CacheT2) (setNo : ℕ) (set : List UWord) : CacheT2 :=
  { c with
    tags := overlay c.tags (setNo * c.ways) set
    tags_length := by rw [length_overlay, c.tags_length] }

/-- **The rows tile the array**: a set number below `sets` stays inside `tags`. -/
theorem row_le (c : CacheT2) (hassoc : 0 ≤ c.assoc) {setNo : ℕ} (h : (setNo : ℤ) < c.sets) :
    setNo * c.ways + c.ways ≤ c.tags.length := by
  rw [c.tags_length, ways]
  have h1 : ((setNo : ℤ) + 1) * c.assoc ≤ c.sets * c.assoc :=
    mul_le_mul_of_nonneg_right (by omega) hassoc
  have h2 : (((setNo + 1) * c.assoc.toNat : ℕ) : ℤ) = ((setNo : ℤ) + 1) * c.assoc := by
    push_cast
    rw [toNat_of_nonneg hassoc]
  have h3 : (setNo + 1) * c.assoc.toNat = setNo * c.assoc.toNat + c.assoc.toNat := by ring
  omega

theorem length_row (c : CacheT2) (hassoc : 0 ≤ c.assoc) {setNo : ℕ} (h : (setNo : ℤ) < c.sets) :
    (c.row setNo).length = c.ways := length_slice (c.row_le hassoc h)

/-- A row that a set function is handed. -/
theorem row_of_lt (c : CacheT2) {n : ℕ} (h : (n : ℤ) < c.sets ∧ 1 ≤ c.assoc) :
    (c.row n).length = c.ways ∧ 0 < c.ways :=
  ⟨c.length_row (by omega) h.1, pos_iff_toNat_pos.mp h.2⟩

theorem row_writeRow_self (c : CacheT2) (hassoc : 0 ≤ c.assoc) {n : ℕ} (h : (n : ℤ) < c.sets)
    {s : List UWord} (hs : s.length = c.ways) : (c.writeRow n s).row n = s :=
  slice_overlay_self hs (c.row_le hassoc h)

theorem row_writeRow_of_ne (c : CacheT2) {n m : ℕ} (hnm : m ≠ n) {s : List UWord}
    (hs : s.length = c.ways) : (c.writeRow n s).row m = c.row m := by
  refine slice_overlay_of_disjoint hs ?_
  rcases lt_or_gt_of_ne hnm with h | h
  · left
    calc m * c.ways + c.ways = (m + 1) * c.ways := by ring
      _ ≤ n * c.ways := Nat.mul_le_mul_right _ h
  · right
    calc n * c.ways + c.ways = (n + 1) * c.ways := by ring
      _ ≤ m * c.ways := Nat.mul_le_mul_right _ h

/-- What a row holds the array holds. -/
theorem mem_tags_of_mem_row {c : CacheT2} {n : ℕ} {tag : UWord} (h : tag ∈ c.row n) :
    tag ∈ c.tags := List.mem_of_mem_drop (List.mem_of_mem_take h)

@[simp] theorem writeRow_toGeometry (c : CacheT2) (n : ℕ) (s : List UWord) :
    (c.writeRow n s).toGeometry = c.toGeometry := rfl

/-- Rows written back differ if they do. -/
theorem writeRow_inj {c : CacheT2} (hassoc : 0 ≤ c.assoc) {n : ℕ} (h : (n : ℤ) < c.sets)
    {s s' : List UWord} (hs : s.length = c.ways) (hs' : s'.length = c.ways) :
    c.writeRow n s = c.writeRow n s' ↔ s = s' := by
  constructor
  · intro heq
    rw [← c.row_writeRow_self hassoc h hs, heq, c.row_writeRow_self hassoc h hs']
  · rintro rfl
    rfl

/-- A cache is its geometry and its tags. -/
theorem ext_tags {c d : CacheT2} (hg : c.toGeometry = d.toGeometry) (ht : c.tags = d.tags) :
    c = d := by
  cases c
  cases d
  cases hg
  cases ht
  rfl

end CacheT2

/-! ## `cachesim_initcache` -/

/-- `isInteger`: a `double` equal to its truncation. -/
def isInteger (val : ℚ) : Bool := val == (val.num.tdiv val.den : ℤ)

/-- The C operator `^` on `Int`s is exclusive or. -/
def xorInt (m n : ℤ) : ℤ := (BitVec.ofInt 32 m ^^^ BitVec.ofInt 32 n).toInt

/-- The text of `desc_line`. -/
def descLine (config : CacheT) : String :=
  if config.assoc = 1 then
    toString config.size ++ " B, " ++ toString config.lineSize ++ " B, direct-mapped"
  else
    toString config.size ++ " B, " ++ toString config.lineSize ++ " B, " ++ toString config.assoc
      ++ "-way associative"

/-- The number of sets: `(c->size / c->line_size) / c->assoc`. -/
def CacheT.setCount (config : CacheT) : ℤ := (config.size.tdiv config.lineSize).tdiv config.assoc

/-- `cachesim_initcache`. -/
def cachesimInitcache (config : CacheT) : Except Fault CacheT2 :=
  if config.lineSize = 0 ∨ config.assoc = 0 then .error .divisionByZero
  else
    let sets := config.setCount
    let power2Sets := xorInt 2 (vgLog2 (toUInt sets) + 1)
    let pow2 := isInteger (vgLog2 (toUInt sets))
    if sets < 0 then .error .outOfMemory
    else .ok
      { size := config.size
        assoc := config.assoc
        lineSize := config.lineSize
        sets := sets
        setsMin1 := if pow2 then sets - 1 else power2Sets - 1
        lineSizeBits := vgLog2 (toUInt config.lineSize)
        tagShift := vgLog2 (toUInt config.lineSize)
          + (if pow2 then vgLog2 (toUInt sets) else vgLog2 (toUInt power2Sets))
        descLine := descLine config
        tags := List.replicate (sets * config.assoc).toNat 0
        tags_length := List.length_replicate }

/-- An `Int` is integral: the other branch of `cachesim_initcache` is dead. -/
@[simp] theorem isInteger_intCast (n : ℤ) : isInteger (n : ℚ) = true := by simp [isInteger]

/-- What `cachesim_initcache` builds when it builds anything. -/
structure InitSpec (config : CacheT) (c : CacheT2) : Prop where
  assoc_eq : c.assoc = config.assoc
  lineSize_eq : c.lineSize = config.lineSize
  sets_eq : c.sets = config.setCount
  sets_nonneg : 0 ≤ c.sets
  setsMin1_eq : c.setsMin1 = c.sets - 1
  lineSizeBits_eq : c.lineSizeBits = vgLog2 (toUInt config.lineSize)
  tags_eq : c.tags = List.replicate (c.sets * c.assoc).toNat 0

theorem initSpec_of_ok {config : CacheT} {c : CacheT2} (h : cachesimInitcache config = .ok c) :
    InitSpec config c := by
  rw [cachesimInitcache] at h
  split at h
  · cases h
  simp only [isInteger_intCast, if_true] at h
  split at h
  · cases h
  rename_i hneg
  cases h
  exact ⟨rfl, rfl, rfl, not_lt.mp hneg, rfl, rfl, rfl⟩

/-- Initialisation succeeds exactly when it divides by nothing zero and the set count is not
negative. -/
theorem exists_initcache_ok {config : CacheT} (hline : config.lineSize ≠ 0)
    (hassoc : config.assoc ≠ 0) (hsets : 0 ≤ config.setCount) :
    ∃ c, cachesimInitcache config = .ok c := by
  rw [cachesimInitcache, if_neg (by simp [hline, hassoc])]
  exact ⟨_, if_neg (by omega)⟩

/-- The set count of an accepted configuration is positive. -/
theorem one_le_sets {c : CacheT} {k : ℕ} (hc : c.Accepted k) (hassoc : 1 ≤ c.assoc) :
    1 ≤ c.setCount := by
  have hline : 0 < c.lineSize := by rw [hc.lineSize_eq]; positivity
  have hsize : 0 ≤ c.size := by have := hc.lineSize_lt_size; omega
  have hdiv : 0 ≤ c.size / c.lineSize := ediv_nonneg hsize hline.le
  rw [CacheT.setCount, tdiv_eq_ediv_of_nonneg hsize, tdiv_eq_ediv_of_nonneg hdiv]
  exact (Int.le_ediv_iff_mul_le (by omega)).mpr (by have := hc.assoc_le; omega)

/-- The line size of a power of two has its exponent as bits. -/
theorem InitSpec.lineSizeBits_of_pow {config : CacheT} {c : CacheT2} (h : InitSpec config c) {k : ℕ}
    (hline : config.lineSize = 2 ^ k) (hk : k < 32) : c.lineSizeBits = k := by
  have hlt : (2 : ℤ) ^ k < 2 ^ 32 := pow_lt_pow_right₀ (by norm_num) hk
  have hnat : ((2 : ℤ) ^ k).toNat = 2 ^ k := by
    rw [show (2 : ℤ) ^ k = ((2 ^ k : ℕ) : ℤ) by push_cast; rfl, toNat_natCast]
  rw [h.lineSizeBits_eq, hline, toUInt_of_nonneg (by positivity) hlt, hnat, vgLog2_two_pow hk]

/-- Every row of a fresh cache is all-zero. -/
theorem InitSpec.row_eq {config : CacheT} {c : CacheT2} (h : InitSpec config c)
    (hassoc : 0 ≤ c.assoc) {n : ℕ} (hn : (n : ℤ) < c.sets) : c.row n = List.replicate c.ways 0 := by
  have hle := c.row_le hassoc hn
  rw [c.tags_length] at hle
  rw [CacheT2.row, h.tags_eq]
  exact slice_replicate hle

/-! ## `copy_caches` -/

/-- `copy_caches`: the geometry and the tags, not the description; the destination's array has to
be long enough. -/
def copyCaches (cOri cDest : CacheT2) : Except Fault CacheT2 :=
  if cOri.tags.length ≤ cDest.tags.length then .ok { cOri with descLine := cDest.descLine }
  else .error .heapOutOfRange

end Valgrind.Cachegrind
