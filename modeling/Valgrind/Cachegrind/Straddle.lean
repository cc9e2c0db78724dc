import Valgrind.Core.Machine
import Valgrind.Cachegrind.IndexSafety

/-!
# Cachegrind/Straddle — accesses over more than two lines

`cachesim_ref_is_miss` handles an access within one line and one over two lines, and panics
otherwise.  Three checks are there to keep such accesses away: lines have 16 bytes at least, the
smallest line is no smaller than the largest register, and `cg_instrument` cuts larger accesses down
to the smallest line.

Two kinds of access get through (`no_straddle_iff`).

* The size becomes a `UChar`.  With lines of 256 bytes and more a size cut down to a multiple of
  256 turns into `0`, and the last byte of such an access to the start of a line is in the line
  before.
* A client request is one pseudo-instruction of up to 20 bytes, and 16-byte lines are allowed.
-/

open Hoare Nat

namespace Valgrind.Cachegrind

variable {L : Type} {opts : Options} {a k size : ℕ} {g : Geometry} {c : CacheRef} {e : Engine}

/-! ## Lines -/

/-- An access touches the line it starts in and at most the next one. -/
def TwoLines (g : Geometry) (a : Addr) (size : ℕ) : Prop :=
  g.lastBlock a size = g.block a ∨ g.lastBlock a size = g.block a + 1

/-- The last of `n ≥ 1` bytes is in the line of the first or the next. -/
theorem div_last_iff {n l : ℕ} (hl : 0 < l) (hn : 1 ≤ n) :
    ((a + n - 1) / l = a / l ∨ (a + n - 1) / l = a / l + 1) ↔ a % l + n ≤ 2 * l := by
  have hsplit : a + n - 1 = (a % l + n - 1) + l * (a / l) := by
    have := mod_add_div a l
    omega
  have hlt : (a % l + n - 1) / l < 2 ↔ a % l + n - 1 < 2 * l := div_lt_iff_lt_mul hl
  rw [hsplit, add_mul_div_left _ _ hl]
  generalize (a % l + n - 1) / l = q at hlt ⊢
  generalize a / l = b
  omega

/-- The byte before an address is in its line unless the address starts one. -/
theorem div_pred_iff {l : ℕ} (ha : 1 ≤ a) :
    ((a - 1) / l = a / l ∨ (a - 1) / l = a / l + 1) ↔ ¬ l ∣ a := by
  have hsucc : (a - 1 + 1) / l = (a - 1) / l + if l ∣ a - 1 + 1 then 1 else 0 := Nat.succ_div
  rw [Nat.sub_add_cancel ha] at hsucc
  rw [hsucc]
  generalize (a - 1) / l = q
  by_cases h : l ∣ a
  · simp only [h, if_true, not_true, iff_false]
    omega
  · simp [h]

/-- The two blocks, as quotients. -/
theorem twoLines_eq (hbits : g.lineSizeBits = k) (a n : ℕ) :
    TwoLines g a n ↔ (a + n + (2 ^ 64 - 1)) % 2 ^ 64 / 2 ^ k = a / 2 ^ k
      ∨ (a + n + (2 ^ 64 - 1)) % 2 ^ 64 / 2 ^ k = a / 2 ^ k + 1 := by
  rw [TwoLines, Geometry.lastBlock, Geometry.block, Geometry.block, hbits, Int.toNat_natCast,
    shiftRight_eq_div_pow, shiftRight_eq_div_pow]

/-- **An access of at least one byte.** -/
theorem twoLines_iff (hbits : g.lineSizeBits = k) {n : ℕ} (hn : 1 ≤ n) (ha : a + n ≤ 2 ^ 64) :
    TwoLines g a n ↔ a % 2 ^ k + n ≤ 2 * 2 ^ k := by
  have hlast : (a + n + (2 ^ 64 - 1)) % 2 ^ 64 = a + n - 1 := by omega
  rw [twoLines_eq hbits, hlast]
  exact div_last_iff (by positivity) hn

/-- **An access of no byte**, as a size of 256 is passed. -/
theorem twoLines_zero_iff (hbits : g.lineSizeBits = k) (hk : k < 32) (ha : a < 2 ^ 64) :
    TwoLines g a 0 ↔ ¬ 2 ^ k ∣ a := by
  rw [twoLines_eq hbits]
  rcases Nat.eq_zero_or_pos a with rfl | hpos
  · refine iff_of_false ?_ (not_not.mpr (dvd_zero _))
    have hle : (2 : ℕ) ^ k ≤ 2 ^ 32 := Nat.pow_le_pow_right (by norm_num) hk.le
    have hbig : 2 ≤ (2 ^ 64 - 1) / 2 ^ k := by
      rw [le_div_iff_mul_le (by positivity)]
      omega
    rw [Nat.zero_div, show (0 + 0 + (2 ^ 64 - 1)) % 2 ^ 64 = 2 ^ 64 - 1 by norm_num]
    generalize (2 ^ 64 - 1) / 2 ^ k = q at hbig ⊢
    omega
  · have hlast : (a + 0 + (2 ^ 64 - 1)) % 2 ^ 64 = a - 1 := by omega
    rw [hlast]
    exact div_pred_iff hpos

/-! ## The panic -/

/-- The calls the simulator makes: any function on the result caches, the function of a policy on
its shadow caches. -/
def Calls (f : MissFn) : CacheRef → Prop
  | .main _ => True
  | .shadow _ _ => ∃ p, f = .basic p

/-- The set functions, handed a set number of their cache. -/
theorem keepsShape_calls {f : MissFn} (hfc : Calls f c) {sh : Shape}
    (he : HasShape sh e) (block tag : UWord) :
    KeepsShape sh (f.call opts c ((e.caches c).setOf block) tag) := by
  have hset : sh.Safe → ((e.caches c).setOf block : ℤ) < (sh.geom c).sets := by
    intro hsafe
    rw [he.geom_eq c]
    exact Geometry.setOf_lt (hsafe.one_le c) (hsafe.mask c) block
  cases c with
  | main l => exact keepsShape_missFn hset f tag
  | shadow i l =>
    obtain ⟨p, rfl⟩ := hfc
    exact keepsShape_call p hset tag

/-- **The panic is reached iff the access touches a third line.** -/
theorem refIsMiss_ne_straddle_iff {f : MissFn} (hfc : Calls f c) {a : Addr} :
    cachesimRefIsMiss opts f c a size e ≠ .error .straddle
      ↔ TwoLines (e.caches c).toGeometry a size := by
  have hkeep : ∀ block tag, KeepsShape e.shape (f.call opts c ((e.caches c).setOf block) tag) :=
    fun block tag => keepsShape_calls hfc rfl block tag
  rw [cachesimRefIsMiss, bind_of_ok (get_run e), TwoLines]
  split
  · next h =>
    exact iff_of_true (fun herr => ((hkeep _ _).error rfl herr).calm rfl) (.inl h.symm)
  split
  · next h =>
    refine iff_of_true (fun herr => ?_) (.inr h.symm)
    rcases bind_eq_error_iff.mp herr with herr₁ | ⟨miss, e', hfirst, herr₁⟩
    · exact ((hkeep _ _).error rfl herr₁).calm rfl
    rcases bind_eq_error_iff.mp herr₁ with herr₂ | ⟨_, _, -, hpure⟩
    · exact ((hkeep _ _).error ((hkeep _ _).ok rfl hfirst) herr₂).calm rfl
    · cases hpure
  · next h₁ h₂ => exact iff_of_false (not_not.mpr rfl) fun h => h.elim (h₁ ·.symm) (h₂ ·.symm)

/-! ## The sizes `cg_instrument` posts -/

/-- `min_line_size`. -/
def minLineSizeOf (I1c D1c LLc : CacheT) : ℤ :=
  let m := if I1c.lineSize < D1c.lineSize then I1c.lineSize else D1c.lineSize
  if LLc.lineSize < m then LLc.lineSize else m

/-- `if (dataSize > min_line_size) dataSize = min_line_size;` -/
def clampSize (minLineSize dataSize : ℤ) : ℤ :=
  if dataSize > minLineSize then minLineSize else dataSize

/-- `if (isize == 0) isize = VG_MIN_INSTR_SZB;` -/
def instrSize (arch : Arch) (len : ℕ) : ℕ := if len = 0 then arch.minInstrSzb else len

/-- The sizes of the events `cg_instrument` posts: of an instruction that passes its assertion, of a
load or store of a register, and of a dirty helper or a compare-and-swap, which are clamped. -/
inductive Posted (arch : Arch) (minLineSize : ℤ) : AccessKind → ℕ → Prop
  | imark (len : ℕ) (h : arch.InstrSize (instrSize arch len)) :
      Posted arch minLineSize .ir (instrSize arch len)
  | load (size : ℕ) (h1 : 1 ≤ size) (h : (size : ℤ) ≤ arch.machineGetSizeOfLargestGuestRegister) :
      Posted arch minLineSize .dr size
  | store (size : ℕ) (h1 : 1 ≤ size) (h : (size : ℤ) ≤ arch.machineGetSizeOfLargestGuestRegister) :
      Posted arch minLineSize .dw size
  | clamped (kind : AccessKind) (hkind : kind ≠ .ir) (size : ℕ) (h1 : 1 ≤ size) :
      Posted arch minLineSize kind (clampSize minLineSize size).toNat

/-- The configuration of a level. -/
def levelConfig (I1c D1c LLc : CacheT) : Level → CacheT
  | .i1 => I1c
  | .d1 => D1c
  | .ll => LLc

theorem minLineSizeOf_le (I1c D1c LLc : CacheT) (l : Level) :
    minLineSizeOf I1c D1c LLc ≤ (levelConfig I1c D1c LLc l).lineSize := by
  unfold minLineSizeOf
  cases l with
  | i1 | d1 | ll => dsimp only [levelConfig]; split <;> split <;> omega

/-- The smallest line is one of the three. -/
theorem exists_minLineSizeOf_eq (I1c D1c LLc : CacheT) :
    ∃ l, minLineSizeOf I1c D1c LLc = (levelConfig I1c D1c LLc l).lineSize := by
  unfold minLineSizeOf
  dsimp only
  split
  · split
    · exact ⟨.ll, rfl⟩
    · exact ⟨.i1, rfl⟩
  · split
    · exact ⟨.ll, rfl⟩
    · exact ⟨.d1, rfl⟩

/-- A data event has a byte, and no more bytes than the smallest line. -/
theorem Posted.data_bounds {arch : Arch} {m : ℤ} {kind : AccessKind} (h : Posted arch m kind size)
    (hkind : kind ≠ .ir) (hm : 1 ≤ m) (hreg : arch.machineGetSizeOfLargestGuestRegister ≤ m) :
    1 ≤ size ∧ (size : ℤ) ≤ m := by
  cases h with
  | imark len _ => exact absurd rfl hkind
  | load _ h1 h | store _ h1 h => exact ⟨h1, h.trans hreg⟩
  | clamped _ _ size h1 =>
    unfold clampSize
    split
    · omega
    · omega

/-- An instruction event has between 1 and 20 bytes. -/
theorem Posted.instr_bounds {arch : Arch} {m : ℤ} (h : Posted arch m .ir size) :
    1 ≤ size ∧ size ≤ 20 := by
  cases h with
  | imark len h => exact h.bounds
  | clamped _ hkind => exact absurd rfl hkind

/-! ## The exact condition -/

/-- The level of a cache. -/
def CacheRef.level : CacheRef → Level
  | .main l | .shadow _ l => l

/-- The accesses that stay within two lines of `lineSize` bytes: an instruction in lines of 32 bytes
and more, or ending before the third 16-byte line; a data access whose size is not `0` as a `UChar`,
or which does not start a line. -/
def Fits (lineSize : ℤ) (kind : AccessKind) (a : Addr) (size : ℕ) : Prop :=
  if kind = .ir then 32 ≤ lineSize ∨ a % 16 + size ≤ 32
  else ¬ (256 ∣ size ∧ lineSize.toNat ∣ a)

/-- An instruction of up to 20 bytes reaches a third line only if lines have 16 bytes. -/
theorem instr_fits_iff (hk : 4 ≤ k) (hsize : size ≤ 20) :
    a % 2 ^ k + size ≤ 2 * 2 ^ k ↔ (32 : ℤ) ≤ 2 ^ k ∨ a % 16 + size ≤ 32 := by
  rcases hk.eq_or_lt with rfl | hlt
  · norm_num
  · have hline : 2 ^ 5 ≤ 2 ^ k := Nat.pow_le_pow_right (by norm_num) hlt
    have hmod := mod_lt a (show 0 < 2 ^ k by positivity)
    refine iff_of_true (by omega) (.inl ?_)
    exact_mod_cast hline

/-- The line size of a cache in every state a run reaches. -/
theorem lineSizeBits_of_reachable [DecidableEq L] {I1c D1c LLc : CacheT} {s : Sim L}
    (hs : Reachable opts I1c D1c LLc s) (c : CacheRef)
    (hk : (levelConfig I1c D1c LLc c.level).Accepted k) : (s.engine.caches c).lineSizeBits = k := by
  obtain ⟨loc, r, s₀, calls, hinit, hrun⟩ := hs
  obtain ⟨I1, D1, LL, D1s, hI1, hD1, hLL, hD1s, -, rfl⟩ := initcaches_ok hinit
  have hkeep := (simKeeps_runCalls (regular_init opts I1 D1 LL I1 D1s LL r) calls).ok
    (simShape_start opts _ loc) hrun
  have hgeom := HasShape.geom_eq hkeep.1 c
  have hlt : k < 32 := by have := hk.lt; omega
  rw [hgeom]
  rcases c with (_ | _ | _) | ⟨i, _ | _ | _⟩
  · exact (initSpec_of_ok hI1).lineSizeBits_of_pow hk.lineSize_eq hlt
  · exact (initSpec_of_ok hD1).lineSizeBits_of_pow
      ((d1_dims ..).1.2.trans hk.lineSize_eq) hlt
  · exact (initSpec_of_ok hLL).lineSizeBits_of_pow hk.lineSize_eq hlt
  · exact (initSpec_of_ok hI1).lineSizeBits_of_pow hk.lineSize_eq hlt
  · exact (initSpec_of_ok hD1s).lineSizeBits_of_pow
      ((d1_dims ..).2.2.trans hk.lineSize_eq) hlt
  · exact (initSpec_of_ok hLL).lineSizeBits_of_pow hk.lineSize_eq hlt

/-- **No access straddles more than two lines iff it fits**: at every cache, in every state a run
reaches, for all accesses `cg_instrument` posts under configurations that pass `check_cache` and the
register check of `cg_post_clo_init`. -/
theorem no_straddle_iff [DecidableEq L] {arch : Arch} {I1c D1c LLc : CacheT}
    (hcheck : ∀ l, checkCache (levelConfig I1c D1c LLc l) = none)
    (hint : ∀ l, (levelConfig I1c D1c LLc l).FitsInt)
    (hreg : arch.machineGetSizeOfLargestGuestRegister ≤ minLineSizeOf I1c D1c LLc) {s : Sim L}
    (hs : Reachable opts I1c D1c LLc s) {kind : AccessKind} {size : ℕ}
    (hpost : Posted arch (minLineSizeOf I1c D1c LLc) kind size) {a : ℕ} (ha : a + size ≤ 2 ^ 64)
    {f : MissFn} {c : CacheRef} (hfc : Calls f c) :
    cachesimRefIsMiss opts f c a (toUChar size) s.engine ≠ .error .straddle
      ↔ Fits (levelConfig I1c D1c LLc c.level).lineSize kind a size := by
  have hacc := fun l => accepted_of_checkCache (hint l) (hcheck l)
  obtain ⟨k, hk⟩ := hacc c.level
  have hbits := lineSizeBits_of_reachable hs c hk
  have hline : (levelConfig I1c D1c LLc c.level).lineSize.toNat = 2 ^ k := by
    rw [hk.lineSize_eq, show (2 : ℤ) ^ k = ((2 ^ k : ℕ) : ℤ) by push_cast; rfl, Int.toNat_natCast]
  rw [refIsMiss_ne_straddle_iff hfc, Fits]
  split
  · next hkind =>
    subst hkind
    obtain ⟨h1, h20⟩ := hpost.instr_bounds
    have hsize : toUChar size = size := mod_eq_of_lt (by omega)
    rw [hsize, twoLines_iff hbits h1 ha, hk.lineSize_eq]
    exact instr_fits_iff hk.four_le h20
  · next hkind =>
    have hmin : 1 ≤ minLineSizeOf I1c D1c LLc := by
      obtain ⟨l, hl⟩ := exists_minLineSizeOf_eq I1c D1c LLc
      obtain ⟨j, hj⟩ := hacc l
      rw [hl, hj.lineSize_eq]
      exact one_le_pow₀ (by norm_num)
    obtain ⟨h1, hle⟩ := hpost.data_bounds hkind hmin hreg
    have hlt : k < 32 := by have := hk.lt; omega
    have hcut : (size : ℤ) ≤ 2 ^ k :=
      hk.lineSize_eq ▸ hle.trans (minLineSizeOf_le I1c D1c LLc c.level)
    have hcut' : size ≤ 2 ^ k := by exact_mod_cast hcut
    have hmod : toUChar size = size % 256 := rfl
    by_cases hz : 256 ∣ size
    · rw [hmod, mod_eq_zero_of_dvd hz, twoLines_zero_iff hbits hlt (by omega)]
      simp only [hz, true_and, hline]
    · have hpos : 1 ≤ toUChar size := by omega
      have hsmall : toUChar size ≤ size := mod_le _ _
      refine iff_of_true ((twoLines_iff hbits hpos (by omega)).mpr ?_) (fun h => hz h.1)
      have := mod_lt a (show 0 < 2 ^ k by positivity)
      omega

/-- `lru`. -/
def lruOptions : Options := { dip3Options with cacheReplacementPolicy := .lruPolicy }

/-- A client request of amd64 fits into 32-byte lines wherever it starts. -/
theorem no_straddle_clreq : ∃ s₀ : Sim Unit,
    cachesimInitcaches lruOptions ⟨512, 2, 32⟩ ⟨512, 2, 32⟩ ⟨512, 2, 32⟩ (fun _ => ⟨"a", "f", 1⟩)
        lcgStream = .ok s₀
      ∧ cachesimRefIsMiss lruOptions (.basic .lru) (.main .i1) 4127 (toUChar 19) s₀.engine
          ≠ .error .straddle := by
  refine ⟨_, (and_iff_left_of_imp fun hinit => ?_).mpr rfl⟩
  have hpost : Posted (.amd64 true) (minLineSizeOf ⟨512, 2, 32⟩ ⟨512, 2, 32⟩ ⟨512, 2, 32⟩) .ir 19 :=
    .imark 19 (by decide)
  have hfits : Fits 32 .ir 4127 19 := Or.inl le_rfl
  refine (no_straddle_iff (fun l => ?_) (fun l => ?_) (by decide)
    ⟨_, _, _, [], hinit, rfl⟩ hpost (by decide)
    (show Calls (.basic .lru) (.main .i1) from trivial)).mpr hfits
  · cases l <;> decide
  · cases l <;> exact ⟨by decide, by decide, by decide⟩

/-- **Two accesses that touch a third line**: a dirty helper's 512 bytes, cut down to a line of 256
bytes, at the start of a line; and a client request of amd64 at the last byte of a 16-byte line. -/
theorem straddles_three_lines :
    (Posted .x86 (minLineSizeOf ⟨1024, 2, 256⟩ ⟨1024, 2, 256⟩ ⟨1024, 2, 256⟩) .dr 256
      ∧ ∃ s₀ : Sim Unit, cachesimInitcaches lruOptions ⟨1024, 2, 256⟩ ⟨1024, 2, 256⟩
          ⟨1024, 2, 256⟩ (fun _ => ⟨"a", "f", 1⟩) lcgStream = .ok s₀
        ∧ runCalls lruOptions [.log0Ir1Dr ⟨4096, 4, ()⟩ 512 256] s₀ = .error .straddle)
      ∧ (Posted (.amd64 false) (minLineSizeOf ⟨512, 2, 16⟩ ⟨512, 2, 16⟩ ⟨512, 2, 16⟩) .ir 19
        ∧ ∃ s₀ : Sim Unit, cachesimInitcaches lruOptions ⟨512, 2, 16⟩ ⟨512, 2, 16⟩ ⟨512, 2, 16⟩
            (fun _ => ⟨"a", "f", 1⟩) lcgStream = .ok s₀
          ∧ runCalls lruOptions [.log1IrGen0D ⟨4111, 19, ()⟩] s₀ = .error .straddle) :=
  ⟨⟨.clamped .dr (by decide) 512 (by decide), exists_of_faults lruOptions (by decide +kernel)⟩,
    .imark 19 (by decide), exists_of_faults lruOptions (by decide +kernel)⟩

end Valgrind.Cachegrind
