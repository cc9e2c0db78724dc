import Valgrind.Aspacemgr.Refines

/-!
# Aspacemgr/Advisory — where a mapping should go

`VG_(am_get_advisory)` answers a request for a mapping with an address, or refuses it.  A fixed
request of the client is granted wherever nothing of Valgrind is, a hinted one wherever nothing is
mapped. Everything else looks through the free segments once around, from a starting point on, for a
hole at the requested address and for any hole that is large enough.

**Advice is sound and complete** (`amGetAdvisory_spec`): for requests that are not empty and do not
reach the end of the address space, what is granted is free, and what is refused has no place.

The search asserts that the holes lie between the limits.  They do so as long as nothing is unmapped
across a limit.
-/

namespace Valgrind.Aspacemgr

open NSegment Tiling Aspacem List Nat Added SegKind

/-! ## The code -/

/-- The kinds of a `MapRequest`. -/
inductive MapKind where
  | mFixed
  | mHint
  | mAny
  | mAlign
deriving DecidableEq, Repr

/-- `MapRequest`; the start of an `MAlign` request is the alignment. -/
structure MapRequest where
  rkind : MapKind
  start : ℕ
  len : ℕ
deriving DecidableEq, Repr

/-- The layout of the address space, on a machine whose addresses of interest end at 128 GB. -/
structure Layout where
  minAddr : ℕ
  maxAddr : ℕ
  cStart : ℕ
  vStart : ℕ
  maxAddr_lt : maxAddr < 0x2000000000
  cStart_lt : cStart < 2 ^ 64
  vStart_lt : vStart < 2 ^ 64
deriving DecidableEq, Repr

/-- The layout that `VG_(am_startup)` establishes on 64-bit Linux, from the lowest address to use.
-/
def Layout.amStartup (minAddr : ℕ) (h : minAddr < 2 ^ 64) : Layout where
  minAddr := minAddr
  maxAddr := 0x2000000000 - 1
  cStart := minAddr
  vStart := pgroundup
    ((minAddr + (0x2000000000 - 1 + (2 ^ 64 - minAddr) + 1) % 2 ^ 64 / 2) % 2 ^ 64)
  maxAddr_lt := by decide
  cStart_lt := h
  vStart_lt := Nat.mod_lt _ (by decide)

/-- `VG_ROUNDUP`, by masking. -/
def maskUp (p a : ℕ) : ℕ :=
  (p + a + (2 ^ 64 - 1)) % 2 ^ 64 &&& (2 ^ 64 - 1 - (a + (2 ^ 64 - 1)) % 2 ^ 64)

namespace MapRequest

/-- The address that matters for a fixed or a hinted request. -/
def reqStart (req : MapRequest) : ℕ :=
  if req.rkind = .mFixed ∨ req.rkind = .mHint then req.start else 0

def reqEnd (req : MapRequest) : ℕ := (req.reqStart + req.len + (2 ^ 64 - 1)) % 2 ^ 64

/-- Only a fixed or a hinted request looks for a hole at its address. -/
def fixedNotRequired (req : MapRequest) : Bool := req.rkind = .mAny ∨ req.rkind = .mAlign

/-- Where a hole starts, as far as the request can use it. -/
def holeStart (req : MapRequest) (s : NSegment) : ℕ :=
  if req.rkind = .mAlign then maskUp s.start req.start else s.start

/-- Whether a hole cannot be used because aligning skips it. -/
def skips (req : MapRequest) (s : NSegment) : Bool :=
  req.rkind = .mAlign ∧ req.holeStart s ≥ s.stop

/-- Whether a hole has the request at its address. -/
def fits (req : MapRequest) (s : NSegment) : Bool :=
  req.holeStart s ≤ req.reqStart ∧ req.reqEnd ≤ s.stop

/-- Whether a hole is large enough. -/
def floats (req : MapRequest) (s : NSegment) : Bool := req.len ≤ s.stop - req.holeStart s + 1

end MapRequest

/-- `UPDATE_INDEX`. -/
def updateIndex (l : List NSegment) (i : ℕ) : ℕ := if i + 1 ≥ l.length then 0 else i + 1

/-- The first index that is found is kept. -/
def keepFirst (o : Option ℕ) (found : Bool) (i : ℕ) : Option ℕ :=
  if o = none ∧ found then some i else o

/-- Examine holes, `j` of them, from index `i` on. -/
def scanHoles (lay : Layout) (l : List NSegment) (req : MapRequest) :
    ℕ → ℕ → Option ℕ → Option ℕ → Except Abort (Option ℕ × Option ℕ)
  | 0, _, fixedIdx, floatIdx => .ok (fixedIdx, floatIdx)
  | j + 1, i, fixedIdx, floatIdx => do
    let s ← nsegmentAt l i
    if s.kind ≠ .free then scanHoles lay l req j (updateIndex l i) fixedIdx floatIdx
    else do
      vgAssert (s.start ≤ s.stop)
      vgAssert (lay.minAddr ≤ s.start)
      vgAssert (s.stop ≤ lay.maxAddr)
      if req.skips s then scanHoles lay l req j (updateIndex l i) fixedIdx floatIdx
      else
        let fixedIdx := keepFirst fixedIdx (req.fits s) i
        let floatIdx := keepFirst floatIdx (req.floats s) i
        if (req.fixedNotRequired ∨ fixedIdx.isSome) ∧ floatIdx.isSome then .ok (fixedIdx, floatIdx)
        else scanHoles lay l req j (updateIndex l i) fixedIdx floatIdx

/-- The segment at an index that was found; it must be free. -/
def foundHole (l : List NSegment) : Option ℕ → Except Abort (Option NSegment)
  | none => .ok none
  | some i => do
    let s ← nsegmentAt l i
    vgAssert (s.kind = .free)
    return some s

/-- What to answer when the holes are known. -/
def adviseHole (req : MapRequest) (fixed float : Option NSegment) : Option ℕ :=
  match req.rkind with
  | .mFixed => fixed.map fun _ => req.start
  | .mHint => (fixed.map fun _ => req.start).or (float.map (·.start))
  | .mAny => float.map (·.start)
  | .mAlign => float.map fun s => maskUp s.start req.start

/-- The Default Policy. -/
def defaultPolicy (lay : Layout) (l : List NSegment) (req : MapRequest) (forClient : Bool) :
    Except Abort (Option ℕ) := do
  let i ← findNsegmentIdx l (if forClient then lay.cStart else lay.vStart)
  let (fixedIdx, floatIdx) ← scanHoles lay l req l.length i none none
  let fixed ← foundHole l fixedIdx
  let float ← foundHole l floatIdx
  return adviseHole req fixed float

/-- Whether all segments of the requested range are of the given kinds. -/
def allowed (l : List NSegment) (kinds : SegKind → Bool) (req : MapRequest) :
    Except Abort Bool := do
  let iLo ← findNsegmentIdx l req.reqStart
  let iHi ← findNsegmentIdx l req.reqEnd
  return (slice l iLo iHi).all fun s => kinds s.kind

/-- The kinds on which the client may have a hinted mapping. -/
def SegKind.isUnmapped (k : SegKind) : Bool := k = .free || k = .resvn

/-- `VG_(am_get_advisory)`: the address, if the request is granted. -/
def amGetAdvisory (lay : Layout) (l : List NSegment) (req : MapRequest) (forClient : Bool) :
    Except Abort (Option ℕ) := do
  vgAssert (0 < l.length)
  if req.len = 0 then return none
  else if (req.start + req.len) % 2 ^ 64 < req.start then return none
  else if forClient ∧ req.rkind = .mFixed then do
    if ← allowed l SegKind.isClientOrFreeOrResvn req then return some req.reqStart else return none
  else if forClient ∧ req.rkind = .mHint then do
    if ← allowed l SegKind.isUnmapped req then return some req.reqStart
    else defaultPolicy lay l req forClient
  else defaultPolicy lay l req forClient

/-! ## Rounding -/

/-- The least multiple that is not smaller. -/
def alignUp (p a : ℕ) : ℕ := (p + a - 1) / a * a

theorem and_mask (x : ℕ) {k : ℕ} (hk : k ≤ 64) (hx : x < 2 ^ 64) :
    x &&& (2 ^ 64 - 1 - (2 ^ k - 1)) = x / 2 ^ k * 2 ^ k := by
  have hmask : 2 ^ 64 - 1 - (2 ^ k - 1) = 2 ^ 64 - (2 ^ k - 1 + 1) := by omega
  have hlt : 2 ^ k - 1 < 2 ^ 64 :=
    lt_of_lt_of_le (Nat.sub_lt (Nat.two_pow_pos k) one_pos)
      (Nat.pow_le_pow_right two_pos hk)
  rw [hmask]
  refine eq_of_testBit_eq fun i => ?_
  rw [testBit_and, testBit_two_pow_sub_succ hlt, testBit_two_pow_sub_one,
    testBit_mul_two_pow, testBit_div_two_pow]
  by_cases hik : k ≤ i
  · by_cases hi : i < 64
    · simp [hik, hi, not_lt.mpr hik]
    · have hbit : x.testBit i = false :=
        Nat.testBit_lt_two_pow (hx.trans_le (Nat.pow_le_pow_right two_pos (not_lt.mp hi)))
      simp [hik, hbit]
  · simp [hik, lt_of_not_ge hik]

/-- **Masking rounds up to a multiple of a power of two**, if nothing overflows. -/
theorem maskUp_eq {p k : ℕ} (hk : k < 64) (hp : p + 2 ^ k ≤ 2 ^ 64) :
    maskUp p (2 ^ k) = alignUp p (2 ^ k) := by
  have hpos : 0 < 2 ^ k := Nat.two_pow_pos k
  have hle : 2 ^ k ≤ 2 ^ 64 := Nat.pow_le_pow_right two_pos hk.le
  have hsum : (p + 2 ^ k + (2 ^ 64 - 1)) % 2 ^ 64 = p + 2 ^ k - 1 := by
    generalize 2 ^ k = a at *
    omega
  have hmask : (2 ^ k + (2 ^ 64 - 1)) % 2 ^ 64 = 2 ^ k - 1 := by
    generalize 2 ^ k = a at *
    omega
  rw [maskUp, hsum, hmask, and_mask _ hk.le (by omega), alignUp]

theorem le_alignUp (p : ℕ) {a : ℕ} (ha : 0 < a) : p ≤ alignUp p a := by
  have h := lt_div_mul_add (a := p + a - 1) ha
  rw [alignUp]
  omega

/-! ## Looking for holes -/

/-- The free segments lie between the limits. -/
abbrev HolesIn (lay : Layout) (l : List NSegment) : Prop :=
  ∀ s ∈ l, s.kind = .free → lay.minAddr ≤ s.start ∧ s.stop ≤ lay.maxAddr

section Scan

variable {lay : Layout} {l : List NSegment} {req : MapRequest} {i n : ℕ}
  {fixedIdx floatIdx o : Option ℕ} {found : Bool}

/-- A hole at the address of the request. -/
def FixedHole (req : MapRequest) (s : NSegment) : Prop :=
  s.kind = .free ∧ ¬ req.skips s ∧ req.fits s

/-- A hole that is large enough. -/
def FloatHole (req : MapRequest) (s : NSegment) : Prop :=
  s.kind = .free ∧ ¬ req.skips s ∧ req.floats s

/-- What is known after `n` segments from `i` on: the indices found are those of such holes, and
nothing was overlooked. -/
structure Scanned (l : List NSegment) (req : MapRequest) (n i : ℕ) (fixedIdx floatIdx : Option ℕ) :
    Prop where
  fixed : ∀ k, fixedIdx = some k → ∃ s, l[k]? = some s ∧ FixedHole req s
  float : ∀ k, floatIdx = some k → ∃ s, l[k]? = some s ∧ FloatHole req s
  noFixed : req.fixedNotRequired = false → fixedIdx = none →
    ∀ m < n, ∀ s, l[(i + m) % l.length]? = some s → ¬ FixedHole req s
  noFloat : floatIdx = none → ∀ m < n, ∀ s, l[(i + m) % l.length]? = some s → ¬ FloatHole req s

theorem updateIndex_eq (hi : i < l.length) : updateIndex l i = (i + 1) % l.length := by
  rw [updateIndex]
  split_ifs with h
  · rw [show i + 1 = l.length by omega, mod_self]
  · rw [mod_eq_of_lt (by omega)]

theorem keepFirst_eq_none (h : keepFirst o found i = none) : o = none ∧ found = false := by
  cases o <;> cases found <;> simp_all [keepFirst]

theorem keepFirst_spec {P : ℕ → Prop} (h : ∀ k, o = some k → P k) (hi : found → P i) :
    ∀ k, keepFirst o found i = some k → P k := by
  intro k hk
  rw [keepFirst] at hk
  split_ifs at hk with hfound
  · exact Option.some.inj hk ▸ hi hfound.2
  · exact h k hk

/-- One more segment in front of those that were examined. -/
theorem Scanned.cons {s : NSegment} (hi : i < l.length) (hs : l[i]? = some s)
    (h : Scanned l req n (updateIndex l i) fixedIdx floatIdx)
    (hfixed : fixedIdx = none → ¬ FixedHole req s) (hfloat : floatIdx = none → ¬ FloatHole req s) :
    Scanned l req (n + 1) i fixedIdx floatIdx := by
  have hnext : ∀ {P : NSegment → Prop}, (∀ m < n, ∀ s,
      l[(updateIndex l i + m) % l.length]? = some s → P s) → P s →
      ∀ m < n + 1, ∀ s, l[(i + m) % l.length]? = some s → P s := by
    intro P hP hPs m hm s' hs'
    cases m with
    | zero =>
      rw [add_zero, mod_eq_of_lt hi, hs] at hs'
      exact Option.some.inj hs' ▸ hPs
    | succ m =>
      refine hP m (lt_of_succ_lt_succ hm) s' ?_
      rwa [updateIndex_eq hi, mod_add_mod, add_assoc, add_comm 1]
  exact ⟨h.fixed, h.float, fun hreq hnone => hnext (h.noFixed hreq hnone) (hfixed hnone),
    fun hnone => hnext (h.noFloat hnone) (hfloat hnone)⟩

/-- **The search finds what there is.** -/
theorem scanHoles_spec (hlo : ∀ s ∈ l, s.start ≤ s.stop) (hholes : HolesIn lay l)
    (hi : i < l.length)
    (hfixed : ∀ k, fixedIdx = some k → ∃ s, l[k]? = some s ∧ FixedHole req s)
    (hfloat : ∀ k, floatIdx = some k → ∃ s, l[k]? = some s ∧ FloatHole req s) :
    ∃ fixedIdx' floatIdx',
      scanHoles lay l req n i fixedIdx floatIdx = .ok (fixedIdx', floatIdx')
        ∧ Scanned l req n i fixedIdx' floatIdx' ∧ (fixedIdx' = none → fixedIdx = none)
        ∧ (floatIdx' = none → floatIdx = none) := by
  induction n generalizing i fixedIdx floatIdx with
  | zero =>
    exact ⟨fixedIdx, floatIdx, rfl, ⟨hfixed, hfloat, fun _ _ _ hm => absurd hm (not_lt_zero _),
      fun _ _ hm => absurd hm (not_lt_zero _)⟩, id, id⟩
  | succ n ih =>
    have hget : l[i]? = some l[i] := getElem?_eq_getElem hi
    have hat : nsegmentAt l i = .ok l[i] := by rw [nsegmentAt, hget]
    have hmem : l[i] ∈ l := getElem_mem hi
    have hnext : updateIndex l i < l.length := by
      rw [updateIndex_eq hi]
      exact mod_lt _ (by omega)
    rw [scanHoles, hat, ok_bind]
    by_cases hfree : l[i].kind = .free
    swap
    · rw [if_pos hfree]
      obtain ⟨fx, fl, hok, hscan, hfx, hfl⟩ := ih hnext hfixed hfloat
      exact ⟨fx, fl, hok, hscan.cons hi hget (fun _ h => hfree h.1) fun _ h => hfree h.1, hfx, hfl⟩
    obtain ⟨hmin, hmax⟩ := hholes _ hmem hfree
    rw [if_neg (not_not.mpr hfree), vgAssert_bind (hlo _ hmem), vgAssert_bind hmin,
      vgAssert_bind hmax]
    by_cases hskip : req.skips l[i] = true
    · rw [if_pos hskip]
      obtain ⟨fx, fl, hok, hscan, hfx, hfl⟩ := ih hnext hfixed hfloat
      exact ⟨fx, fl, hok, hscan.cons hi hget (fun _ h => h.2.1 hskip) fun _ h => h.2.1 hskip, hfx,
        hfl⟩
    rw [if_neg hskip]
    have hfixed' := keepFirst_spec hfixed fun hfit =>
      ⟨_, hget, hfree, hskip, hfit⟩
    have hfloat' := keepFirst_spec hfloat fun hfit =>
      ⟨_, hget, hfree, hskip, hfit⟩
    dsimp only
    split_ifs with hdone
    · -- The search stops early only with everything it needs.
      refine ⟨_, _, rfl, ⟨hfixed', hfloat', fun hreq hfx => ?_, fun hfl => ?_⟩,
        fun hfx => (keepFirst_eq_none hfx).1, fun hfl => (keepFirst_eq_none hfl).1⟩
      · rw [hfx, hreq] at hdone
        simp at hdone
      · rw [hfl] at hdone
        simp at hdone
    · obtain ⟨fx, fl, hok, hscan, hfx, hfl⟩ := ih hnext hfixed' hfloat'
      refine ⟨fx, fl, hok, hscan.cons hi hget (fun h hole => ?_) (fun h hole => ?_),
        fun h => (keepFirst_eq_none (hfx h)).1, fun h => (keepFirst_eq_none (hfl h)).1⟩
      · exact absurd hole.2.2 (by simp [(keepFirst_eq_none (hfx h)).2])
      · exact absurd hole.2.2 (by simp [(keepFirst_eq_none (hfl h)).2])

/-- Once around the array, every segment was examined. -/
theorem Scanned.mem (h : Scanned l req l.length i fixedIdx floatIdx) (hi : i < l.length) :
    (req.fixedNotRequired = false → fixedIdx = none → ∀ s ∈ l, ¬ FixedHole req s)
      ∧ (floatIdx = none → ∀ s ∈ l, ¬ FloatHole req s) := by
  have hall : ∀ {P : NSegment → Prop},
      (∀ m < l.length, ∀ s, l[(i + m) % l.length]? = some s → P s) → ∀ s ∈ l, P s := by
    intro P hP s hs
    obtain ⟨k, hk, rfl⟩ := mem_iff_getElem.mp hs
    refine hP ((k + (l.length - i)) % l.length) (mod_lt _ (by omega)) _ ?_
    rw [add_mod_mod, show i + (k + (l.length - i)) = k + l.length by omega,
      add_mod_right, mod_eq_of_lt hk, getElem?_eq_getElem hk]
  exact ⟨fun hreq hnone => hall (h.noFixed hreq hnone), fun hnone => hall (h.noFloat hnone)⟩

theorem foundHole_eq {P : NSegment → Prop} (hP : ∀ s, P s → s.kind = .free)
    (h : ∀ k, o = some k → ∃ s, l[k]? = some s ∧ P s) :
    ∃ o', foundHole l o = .ok o' ∧ (∀ s, o' = some s → s ∈ l ∧ P s) ∧ (o' = none → o = none) := by
  cases o with
  | none => exact ⟨none, rfl, nofun, fun _ => rfl⟩
  | some k =>
    obtain ⟨s, hget, hs⟩ := h k rfl
    refine ⟨some s, ?_, fun s' hs' => ?_, nofun⟩
    · rw [foundHole, nsegmentAt, hget]
      dsimp only
      rw [ok_bind, vgAssert_bind (hP s hs), pure_eq_ok]
    · obtain rfl := Option.some.inj hs'
      exact ⟨mem_of_getElem? hget, hs⟩

/-- **The Default Policy** answers with the holes there are. -/
theorem defaultPolicy_spec (h : Tiles 0 l (2 ^ 64)) (hholes : HolesIn lay l) (req : MapRequest)
    (forClient : Bool) :
    ∃ fixed float, defaultPolicy lay l req forClient = .ok (adviseHole req fixed float)
      ∧ (∀ s, fixed = some s → s ∈ l ∧ FixedHole req s)
      ∧ (∀ s, float = some s → s ∈ l ∧ FloatHole req s)
      ∧ (req.fixedNotRequired = false → fixed = none → ∀ s ∈ l, ¬ FixedHole req s)
      ∧ (float = none → ∀ s ∈ l, ¬ FloatHole req s) := by
  have hpoint : (if forClient then lay.cStart else lay.vStart) < 2 ^ 64 := by
    split_ifs
    · exact lay.cStart_lt
    · exact lay.vStart_lt
  obtain ⟨l₁, s, l₂, hl, -, -, hfind⟩ := findNsegmentIdx_returns h hpoint
  have hi : l₁.length < l.length := by simp [hl]
  have hspec : ∃ fx fl, scanHoles lay l req l.length l₁.length none none = .ok (fx, fl)
      ∧ Scanned l req l.length l₁.length fx fl ∧ _ ∧ _ :=
    scanHoles_spec (fun s hs => (h.bounds s hs).2.1) hholes hi nofun nofun
  obtain ⟨fx, fl, hok, hscan, -, -⟩ := hspec
  obtain ⟨hnoFixed, hnoFloat⟩ := hscan.mem hi
  obtain ⟨fixed, hfixed, hfixed', hfixedNone⟩ := foundHole_eq (fun s hs => hs.1) hscan.fixed
  obtain ⟨float, hfloat, hfloat', hfloatNone⟩ := foundHole_eq (fun s hs => hs.1) hscan.float
  refine ⟨fixed, float, ?_, hfixed', hfloat', fun hreq hnone => hnoFixed hreq (hfixedNone hnone),
    fun hnone => hnoFloat (hfloatNone hnone)⟩
  rw [defaultPolicy, hfind, ok_bind, hok, ok_bind]
  dsimp only
  rw [hfixed, ok_bind, hfloat, ok_bind, pure_eq_ok]

end Scan

/-! ## Ranges of given kinds -/

/-- All bytes of a range are in segments of the given kinds. -/
def RangeIn (l : List NSegment) (kinds : SegKind → Bool) (lo len : ℕ) : Prop :=
  ∀ s ∈ l, ∀ x, s.start ≤ x → x ≤ s.stop → lo ≤ x → x < lo + len → kinds s.kind

section Ranges

variable {l : List NSegment} {req : MapRequest}

theorem reqEnd_eq (hlen : 0 < req.len) (hwrap : req.reqStart + req.len < 2 ^ 64) :
    req.reqEnd = req.reqStart + req.len - 1 := by
  rw [MapRequest.reqEnd]
  generalize req.reqStart = start at *
  omega

/-- **A range is judged by the segments it meets.** -/
theorem allowed_spec (h : Tiles 0 l (2 ^ 64)) (kinds : SegKind → Bool) (hlen : 0 < req.len)
    (hwrap : req.reqStart + req.len < 2 ^ 64) :
    ∃ ok, allowed l kinds req = .ok ok ∧ (ok = true ↔ RangeIn l kinds req.reqStart req.len) := by
  obtain ⟨l₁, s₁, l₂, hl₁, hlo₁, hhi₁, hLo⟩ :=
    findNsegmentIdx_returns (x := req.reqStart) h (by omega)
  obtain ⟨r₁, s₂, r₂, hl₂, hlo₂, hhi₂, hHi⟩ :=
    findNsegmentIdx_returns (x := req.reqStart + req.len - 1) h (by omega)
  refine ⟨(slice l l₁.length r₁.length).all fun s => kinds s.kind, ?_, ?_⟩
  · rw [allowed, hLo, ok_bind, reqEnd_eq hlen hwrap, hHi, ok_bind, pure_eq_ok]
  rw [all_eq_true]
  constructor
  · intro hall s hs x hx hx' hlo hhi
    exact hall s ((mem_slice h hl₁ hl₂ hlo₁ hhi₁ hlo₂ hhi₂).mpr ⟨hs, hlo.trans hx', by omega⟩)
  · intro hin s hs
    obtain ⟨hmem, hy, hz⟩ := (mem_slice h hl₁ hl₂ hlo₁ hhi₁ hlo₂ hhi₂).mp hs
    have hle : s.start ≤ s.stop := (h.bounds s hmem).2.1
    exact hin s hmem (max s.start req.reqStart) (by omega) (by omega) (by omega) (by omega)

end Ranges

/-! ## Advice -/

section Advice

open MapRequest

variable {lay : Layout} {l : List NSegment} {req : MapRequest} {s : NSegment} {r : ℕ}

/-- A request that the function does not turn down at once. -/
structure Proper (req : MapRequest) : Prop where
  pos : 0 < req.len
  page : req.len % pageSize = 0
  fits : req.start + req.len < 2 ^ 64
  align : req.rkind = .mAlign → ∃ k, req.start = 2 ^ k ∧ req.start % pageSize = 0

/-- The bytes from `r` on lie in one free segment. -/
def InHole (l : List NSegment) (r len : ℕ) : Prop :=
  ∃ s ∈ l, s.kind = .free ∧ s.start ≤ r ∧ r + len ≤ s.stop + 1

theorem Proper.reqStart_add (h : Proper req) : req.reqStart + req.len < 2 ^ 64 := by
  have hfits := h.fits
  rw [reqStart]
  split_ifs <;> omega

/-- Where a hole starts for the request, if it is in the part of the address space that is used. -/
theorem Proper.holeStart_eq (h : Proper req) (hs : s.start < 0x2000000000) :
    req.holeStart s = if req.rkind = .mAlign then alignUp s.start req.start else s.start := by
  rw [holeStart]
  split_ifs with hkind
  · obtain ⟨k, hk, -⟩ := h.align hkind
    have hfits := h.fits
    have hlt : k < 64 := by
      refine (Nat.pow_lt_pow_iff_right (a := 2) (by norm_num)).mp ?_
      omega
    have hle : 2 ^ k ≤ 2 ^ 63 := Nat.pow_le_pow_right two_pos (by omega)
    rw [hk]
    exact maskUp_eq hlt (by omega)
  · rfl

/-- A hole at the address of the request has the request. -/
theorem FixedHole.inHole (h : FixedHole req s) (hreq : Proper req) (hs : s ∈ l)
    (hkind : req.rkind ≠ .mAlign) : InHole l req.reqStart req.len := by
  obtain ⟨hfree, -, hfits⟩ := h
  have hpos := hreq.pos
  simp only [fits, holeStart, if_neg hkind,
    reqEnd_eq hpos hreq.reqStart_add, decide_eq_true_eq] at hfits
  exact ⟨s, hs, hfree, hfits.1, by omega⟩

theorem FloatHole.inHole (h : FloatHole req s) (hs : s ∈ l) (hle : s.start ≤ s.stop)
    (hhole : s.start ≤ req.holeStart s) : InHole l (req.holeStart s) req.len := by
  obtain ⟨hfree, hskip, hfloats⟩ := h
  simp only [floats, decide_eq_true_eq] at hfloats
  have hstop : req.holeStart s ≤ s.stop := by
    by_cases hkind : req.rkind = .mAlign
    · simp only [skips, hkind, decide_eq_true_eq, true_and] at hskip
      omega
    · rw [holeStart, if_neg hkind]
      exact hle
  exact ⟨s, hs, hfree, hhole, by omega⟩

/-- A free segment that is large enough is not overlooked. -/
theorem floatHole_of_le (hreq : Proper req) (hfree : s.kind = .free)
    (hle : req.holeStart s + req.len ≤ s.stop + 1) : FloatHole req s := by
  have hpos := hreq.pos
  have hpage := hreq.page
  rw [pageSize] at hpage
  refine ⟨hfree, ?_, ?_⟩
  · simp only [skips, decide_eq_true_eq, not_and]
    omega
  · simp only [floats, decide_eq_true_eq]
    omega

theorem isClientOrFreeOrResvn_eq (k : SegKind) : k.isClientOrFreeOrResvn = !k.isValgrind := by
  cases k <;> rfl

theorem rangeIn_of_inHole (h : Tiles 0 l (2 ^ 64)) {len : ℕ} (hin : InHole l r len) :
    RangeIn l SegKind.isUnmapped r len := by
  obtain ⟨s, hs, hfree, hlo, hhi⟩ := hin
  intro s' hs' x hx hx' hrx hxr
  obtain rfl := h.eq_of_mem hs hs' (hlo.trans hrx) (show x ≤ s.stop by omega) hx hx'
  rw [hfree]
  rfl

/-- What the Default Policy grants is in a hole, and fits the request. -/
theorem adviseHole_sound (h : Tiles 0 l (2 ^ 64)) (hreq : Proper req)
    (hused : ∀ s ∈ l, s.kind = .free → s.start < 0x2000000000) {fixed float : Option NSegment}
    (hfixed : ∀ s, fixed = some s → s ∈ l ∧ FixedHole req s)
    (hfloat : ∀ s, float = some s → s ∈ l ∧ FloatHole req s)
    (hr : adviseHole req fixed float = some r) :
    InHole l r req.len ∧ (req.rkind = .mAlign → req.start ∣ r)
      ∧ (req.rkind = .mFixed → r = req.start) := by
  have hfix : req.rkind = .mFixed ∨ req.rkind = .mHint → ∀ s, fixed = some s →
      InHole l req.start req.len := by
    intro hkind s hs
    obtain ⟨hmem, hole⟩ := hfixed s hs
    have hstart : req.reqStart = req.start := if_pos hkind
    rw [← hstart]
    exact hole.inHole hreq hmem (by rcases hkind with h | h <;> rw [h] <;> decide)
  have hflo : ∀ s, float = some s → InHole l (req.holeStart s) req.len := by
    intro s hs
    obtain ⟨hmem, hole⟩ := hfloat s hs
    refine hole.inHole hmem (h.bounds s hmem).2.1 ?_
    rw [hreq.holeStart_eq (hused s hmem hole.1)]
    split_ifs with hkind
    · obtain ⟨k, hk, -⟩ := hreq.align hkind
      exact le_alignUp _ (hk ▸ Nat.two_pow_pos k)
    · exact le_rfl
  have hplain : req.rkind ≠ .mAlign → ∀ s, req.holeStart s = s.start := fun hkind s => if_neg hkind
  rw [adviseHole] at hr
  cases hkind : req.rkind with
  | mFixed =>
    simp only [hkind, Option.map_eq_some_iff] at hr
    obtain ⟨s, hs, rfl⟩ := hr
    exact ⟨hfix (.inl hkind) s hs, nofun, fun _ => rfl⟩
  | mHint =>
    simp only [hkind, Option.or_eq_some_iff, Option.map_eq_some_iff] at hr
    refine ⟨?_, nofun, nofun⟩
    rcases hr with ⟨s, hs, rfl⟩ | ⟨-, s, hs, rfl⟩
    · exact hfix (.inr hkind) s hs
    · rw [← hplain (by rw [hkind]; decide) s]
      exact hflo s hs
  | mAny =>
    simp only [hkind, Option.map_eq_some_iff] at hr
    obtain ⟨s, hs, rfl⟩ := hr
    refine ⟨?_, nofun, nofun⟩
    rw [← hplain (by rw [hkind]; decide) s]
    exact hflo s hs
  | mAlign =>
    simp only [hkind, Option.map_eq_some_iff] at hr
    obtain ⟨s, hs, rfl⟩ := hr
    obtain ⟨hmem, hole⟩ := hfloat s hs
    have hstart : maskUp s.start req.start = req.holeStart s := (if_pos hkind).symm
    refine ⟨hstart ▸ hflo s hs, fun _ => ?_, nofun⟩
    rw [hstart, hreq.holeStart_eq (hused s hmem hole.1), if_pos hkind]
    exact dvd_mul_left _ _

/-- A floating request is refused only if there is no hole. -/
theorem adviseHole_complete (hreq : Proper req)
    (hused : ∀ s ∈ l, s.kind = .free → s.start < 0x2000000000) (fixed : Option NSegment)
    {float : Option NSegment} (hfloat : float = none → ∀ s ∈ l, ¬ FloatHole req s)
    (hr : adviseHole req fixed float = none) :
    (req.rkind = .mAny → ∀ s ∈ l, s.kind = .free → s.stop + 1 < s.start + req.len)
      ∧ (req.rkind = .mAlign → ∀ s ∈ l, s.kind = .free →
        s.stop + 1 < alignUp s.start req.start + req.len) := by
  have hsmall : float = none → ∀ s ∈ l, s.kind = .free → s.stop + 1 < req.holeStart s + req.len :=
    fun hnone s hs hfree =>
      not_le.mp fun hle => hfloat hnone s hs (floatHole_of_le hreq hfree hle)
  rw [adviseHole] at hr
  constructor <;> intro hkind s hs hfree <;> simp only [hkind, Option.map_eq_none_iff] at hr
    <;> have hlt := hreq.holeStart_eq (hused s hs hfree) ▸ hsmall hr s hs hfree
  · rwa [hkind, if_neg (by decide)] at hlt
  · rwa [if_pos hkind] at hlt

/-- **Mapping advice is sound and complete**: a fixed request of the client is granted where nothing
of Valgrind is, and a hint is followed where nothing is mapped; anything else that is granted is in
one free segment, aligned if that was asked for, and at the address that Valgrind fixed; and a
floating request is refused only if no free segment is large enough. -/
theorem amGetAdvisory_spec (lay : Layout) (l : List NSegment) (req : MapRequest)
    (h : Tiles 0 l (2 ^ 64))
    (hholes : ∀ s ∈ l, s.kind = .free → lay.minAddr ≤ s.start ∧ s.stop ≤ lay.maxAddr)
    (hreq : Proper req) (forClient : Bool) :
    ∃ adv, amGetAdvisory lay l req forClient = .ok adv
      ∧ (forClient ∧ req.rkind = .mFixed →
        (adv.isSome ↔ RangeIn l (fun k => !k.isValgrind) req.start req.len)
          ∧ ∀ r, adv = some r → r = req.start)
      ∧ (forClient ∧ req.rkind = .mHint →
        (adv = some req.start ↔ RangeIn l SegKind.isUnmapped req.start req.len))
      ∧ (∀ r, adv = some r →
        ¬ (forClient ∧ (req.rkind = .mFixed ∨ req.rkind = .mHint ∧ r = req.start)) →
          InHole l r req.len ∧ (req.rkind = .mAlign → req.start ∣ r)
            ∧ (req.rkind = .mFixed → r = req.start))
      ∧ (adv = none →
        (req.rkind = .mAny → ∀ s ∈ l, s.kind = .free → s.stop + 1 < s.start + req.len)
        ∧ (req.rkind = .mAlign → ∀ s ∈ l, s.kind = .free →
          s.stop + 1 < alignUp s.start req.start + req.len)) := by
  have hused : ∀ s ∈ l, s.kind = .free → s.start < 0x2000000000 := fun s hs hfree =>
    ((h.bounds s hs).2.1.trans (hholes s hs hfree).2).trans_lt lay.maxAddr_lt
  have hlen : 0 < l.length := by
    obtain ⟨s, r, rfl, -⟩ := h.exists_head (by norm_num)
    exact succ_pos _
  have hwrap : ¬ (req.start + req.len) % 2 ^ 64 < req.start := by
    rw [mod_eq_of_lt hreq.fits]
    omega
  obtain ⟨fixed, float, hpolicy, hfixed, hfloat, -, hnoFloat⟩ :=
    defaultPolicy_spec h hholes req forClient
  have hsound := fun r => adviseHole_sound (r := r) h hreq hused hfixed hfloat
  have hcomplete := adviseHole_complete hreq hused fixed hnoFloat
  rw [amGetAdvisory, vgAssert_bind hlen, if_neg hreq.pos.ne', if_neg hwrap]
  by_cases hfix : forClient ∧ req.rkind = .mFixed
  · -- Exception 1: only what belongs to Valgrind is in the way.
    have hstart : req.reqStart = req.start := if_pos (.inl hfix.2)
    obtain ⟨ok, hok, hiff⟩ :=
      allowed_spec h isClientOrFreeOrResvn hreq.pos hreq.reqStart_add
    rw [hstart, funext isClientOrFreeOrResvn_eq] at hiff
    rw [if_pos hfix, hok, ok_bind, hstart]
    refine ⟨if ok then some req.start else none, by cases ok <;> rfl, fun _ => ⟨?_, ?_⟩, ?_, ?_, ?_⟩
    · rw [← hiff]
      cases ok <;> simp
    · intro r hr
      split_ifs at hr
      exact (Option.some.inj hr).symm
    · rw [hfix.2]
      exact fun hhint => nomatch hhint.2
    · exact fun r _ hother => absurd ⟨hfix.1, .inl hfix.2⟩ hother
    · rw [hfix.2]
      exact fun _ => ⟨nofun, nofun⟩
  rw [if_neg hfix]
  by_cases hhint : forClient ∧ req.rkind = .mHint
  · -- Exception 2: a hint is followed where nothing is mapped; otherwise the holes decide.
    have hstart : req.reqStart = req.start := if_pos (.inr hhint.2)
    obtain ⟨ok, hok, hiff⟩ := allowed_spec h isUnmapped hreq.pos hreq.reqStart_add
    rw [hstart] at hiff
    rw [if_pos hhint, hok, ok_bind, hstart, hpolicy]
    cases ok with
    | true =>
      refine ⟨some req.start, rfl, fun h => absurd h hfix, fun _ => ?_, fun r hr hother => ?_,
        nofun⟩
      · exact iff_of_true rfl (hiff.mp rfl)
      · exact absurd ⟨hhint.1, .inr ⟨hhint.2, (Option.some.inj hr).symm⟩⟩ hother
    | false =>
      refine ⟨adviseHole req fixed float, rfl, fun h => absurd h hfix, fun _ => ⟨fun hr => ?_, ?_⟩,
        fun r hr _ => hsound r hr, hcomplete⟩
      · exact rangeIn_of_inHole h (hsound _ hr).1
      · exact fun hin => absurd (hiff.mpr hin) Bool.false_ne_true
  · rw [if_neg hhint, hpolicy]
    exact ⟨adviseHole req fixed float, rfl, fun h => absurd h hfix, fun h => absurd h hhint,
      fun r hr _ => hsound r hr, hcomplete⟩

/-- The array of a process in which nothing is mapped: what is below and above the limits is
reserved. -/
def reserved (lay : Layout) : List NSegment :=
  [{ kind := .resvn, start := 0, stop := lay.minAddr - 1 },
    { kind := .free, start := lay.minAddr, stop := lay.maxAddr },
    { kind := .resvn, start := lay.maxAddr + 1, stop := 2 ^ 64 - 1 }]

/-- A page is granted at the lowest address. -/
theorem amGetAdvisory_spec_page :
    amGetAdvisory (.amStartup 0x4000000 (by decide)) (reserved (.amStartup 0x4000000 (by decide)))
        ⟨.mAny, 0, 0x1000⟩ true = .ok (some 0x4000000)
      ∧ InHole (reserved (.amStartup 0x4000000 (by decide))) 0x4000000 0x1000 := by
  refine (and_iff_left_of_imp fun hok => ?_).mpr (by decide +kernel)
  obtain ⟨adv, hadv, -, -, hsound, -⟩ := amGetAdvisory_spec (.amStartup 0x4000000 (by decide))
    (reserved (.amStartup 0x4000000 (by decide))) ⟨.mAny, 0, 0x1000⟩
    ⟨rfl, by decide, rfl, by decide, rfl, by decide, rfl⟩ (by decide)
    ⟨by decide, by decide, by decide, nofun⟩ true
  rw [hok] at hadv
  exact (hsound _ (Except.ok.inj hadv).symm (by decide)).1

/-- **Empty requests and those that reach the end of the address space are turned down**: the client
asks for no bytes, none of which is Valgrind's; and for a page anywhere, with a start that does not
matter for such a request. -/
theorem amGetAdvisory_refuses :
    (amGetAdvisory (.amStartup 0x4000000 (by decide)) (reserved (.amStartup 0x4000000 (by decide)))
        ⟨.mFixed, 0x4000000, 0⟩ true = .ok none
      ∧ RangeIn (reserved (.amStartup 0x4000000 (by decide))) (fun k => !k.isValgrind) 0x4000000 0)
    ∧ amGetAdvisory (.amStartup 0x4000000 (by decide)) (reserved (.amStartup 0x4000000 (by decide)))
        ⟨.mAny, 2 ^ 64 - 0x1000, 0x1000⟩ true = .ok none
      ∧ InHole (reserved (.amStartup 0x4000000 (by decide))) 0x4000000 0x1000 := by
  refine ⟨⟨by decide +kernel, fun s hs x _ _ h₁ h₂ => ?_⟩, by decide +kernel, ?_⟩
  · exact absurd h₂ (not_lt.mpr h₁)
  · exact ⟨_, mem_cons_of_mem _ (mem_cons_self ..), rfl, le_rfl, by decide⟩

end Advice

/-! ## Holes between the limits -/

section Holes

variable {lay : Layout} {l l' : List NSegment} {op : Op} {r : Reply}

/-- The limits of the layout. -/
abbrev Layout.limits (lay : Layout) : Limits := ⟨lay.minAddr, lay.maxAddr⟩

/-- The range lies between the limits, or above them. -/
def Layout.Clears (lay : Layout) (a len : ℕ) : Prop :=
  lay.minAddr ≤ a ∧ a + len ≤ lay.maxAddr + 1 ∨ lay.maxAddr < a

/-- The client maps, unmaps or moves; what it gives up lies across none of the limits, and if it is
moved away, not below them. -/
def Op.Clears (lay : Layout) : Op → Prop
  | .mmap .. => True
  | .munmap a len => lay.Clears a len ∨ a + len ≤ lay.minAddr
  | .munmapClient a len _ => lay.Clears a (pgroundup len) ∨ a + pgroundup len ≤ lay.minAddr
  | .relocate oldAddr oldLen .. => lay.Clears oldAddr oldLen
  | _ => False

/-- A new segment that is not a hole across the limits. -/
theorem Added.holesIn {seg : NSegment} (h : Added seg l l') (hl : HolesIn lay l)
    (hseg : seg.kind = .free → lay.minAddr ≤ seg.start ∧ seg.stop ≤ lay.maxAddr) :
    HolesIn lay l' := by
  refine Replaces.forall_mem h (fun s p hlo hhi _ hs => ⟨fun hf => ?_, fun hf => ?_⟩)
    (fun _ _ hs => hs) (fun _ _ _ => forall_mem_singleton.mpr hseg)
    (fun s1 s2 u hu _ _ h1 h2 hf => ?_) hl
  · have hin := hs hf
    exact ⟨hin.1, show p - 1 ≤ _ by omega⟩
  · have hin := hs hf
    exact ⟨show _ ≤ p by omega, hin.2⟩
  · obtain ⟨hjoin, rfl⟩ := merge_eq_some.mp hu
    simp only [joins, Bool.and_eq_true, decide_eq_true_eq] at hjoin
    exact ⟨(h1 hf).1, (h2 (hjoin.1 ▸ hf)).2⟩

theorem holeKind_eq_free {a len : ℕ} (h : lay.Clears a len ∨ a + len ≤ lay.minAddr)
    (hfree : holeKind lay.limits a (a + len - 1) = .free) :
    lay.minAddr ≤ a ∧ a + len - 1 ≤ lay.maxAddr := by
  have hmax := lay.maxAddr_lt
  rw [holeKind] at hfree
  split_ifs at hfree with h₁ h₂
  simp only [Layout.Clears] at h h₁ h₂
  omega

theorem Change.holesIn (hc : Change lay.limits l op r l') (hl : HolesIn lay l)
    (hop : op.Clears lay) : HolesIn lay l' := by
  cases hc with
  | failed | munmapNone | munmapClientNone => exact hl
  | mmapAnon _ _ hadd | mmapFile _ _ hadd => exact holesIn hadd hl nofun
  | munmap _ hadd | munmapClient _ hadd => exact holesIn hadd hl (holeKind_eq_free hop)
  | relocate _ _ _ hkind _ _ _ _ hadd₁ hadd₂ =>
    refine holesIn hadd₂ (holesIn hadd₁ hl fun hf => ?_) fun hf => ?_
    · exact nomatch hkind.symm.trans (congrArg isClient hf)
    · have hmax := lay.maxAddr_lt
      simp only [Op.Clears, Layout.Clears] at hop
      simp only [relocateHoleKind, ite_eq_right_iff, reduceCtorEq, imp_false] at hf ⊢
      omega
  | _ => exact hop.elim

/-- **Holes stay between the limits**, and the search through them passes its assertions: in every
run of a client that unmaps nothing across a limit, and moves nothing away from below them. -/
theorem holes_between_limits {st st' : Aspacem} {ops : List Op} {rs : List Reply}
    (h : Tiles 0 st.segs (2 ^ 64)) (hl : HolesIn lay st.segs) (hops : ∀ op ∈ ops, op.Clears lay)
    (hrun : Refinement.run (Aspacem.step lay.limits) st ops = .ok (rs, st')) :
    HolesIn lay st'.segs
      ∧ ∀ req forClient, ∃ adv, defaultPolicy lay st'.segs req forClient = .ok adv := by
  induction ops generalizing st rs with
  | nil =>
    cases hrun
    refine ⟨hl, fun req forClient => ?_⟩
    obtain ⟨fixed, float, hok, -⟩ := defaultPolicy_spec h hl req forClient
    exact ⟨_, hok⟩
  | cons op ops ih =>
    obtain ⟨r, rs, st₁, rfl, hstep, hrun⟩ := Refinement.exists_of_run_cons hrun
    obtain ⟨hop, hops⟩ := forall_mem_cons.mp hops
    have hc := step_change h hstep
    exact ih (hc.tiles h) (hc.holesIn hl hop) hops hrun

/-- The layout of a process that starts at 64 MB. -/
def from64MB : Layout := .amStartup 0x4000000 (by decide)

/-- A page is mapped above the limits and unmapped. -/
theorem holes_between_limits_above :
    Refinement.run (Aspacem.step from64MB.limits) ⟨reserved from64MB, .amSegnamesInit⟩
        [.mmap 0x2000000000 0x1000 3 0x22 0 ⟨none, none⟩, .munmap 0x2000000000 0x1000]
      = .ok ([⟨true, false⟩, ⟨true, false⟩], ⟨reserved from64MB, .amSegnamesInit⟩)
    ∧ HolesIn from64MB (reserved from64MB) := by
  have htiles : Tiles 0 (reserved from64MB) (2 ^ 64) :=
    ⟨rfl, by decide, rfl, by decide, rfl, by decide, rfl⟩
  refine (and_iff_left_of_imp fun hrun => ?_).mpr (by decide +kernel)
  exact (holes_between_limits htiles (by decide) (by
    simp [Op.Clears, Layout.Clears, from64MB, Layout.amStartup]) hrun).1

/-- **A range across the limit**: two pages are granted to the client and given up again, and the
next request fails an assertion. -/
theorem straddling_unmap_fails :
    amGetAdvisory from64MB (reserved from64MB) ⟨.mFixed, 0x1ffffff000, 0x2000⟩ true
        = .ok (some 0x1ffffff000)
      ∧ (Refinement.run (Aspacem.step from64MB.limits) ⟨reserved from64MB, .amSegnamesInit⟩
        [.mmap 0x1ffffff000 0x2000 3 0x22 0 ⟨none, none⟩,
          .munmap 0x1ffffff000 0x2000]).toOption.map
          (fun p => amGetAdvisory from64MB p.2.segs ⟨.mAny, 0, 0x1000⟩ true)
        = some (.error .assertion) := by
  decide +kernel

end Holes

end Valgrind.Aspacemgr
