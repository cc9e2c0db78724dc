import Valgrind.Foundations.Hoare
import Valgrind.Cachegrind.SetInvariant

/-!
# Cachegrind/Engine — the result caches, the four shadow policies and the selectors

`cg_sim.c` keeps three result caches and, for each of four policies, a shadow triple.  A pointer
to a `cache_t2` is a `CacheRef`, so the tests `c == &D1` of the source are pattern matches.  The
replacement functions of `SetRef` act on one cache; on top of them

* `dip` and `dip_3` set the result of shadow references against each other in saturating counters;
* `dip_3a` and the cache duelling compare the miss histories of `store_misses_history`;
* `cachesim_ref_is_miss` splits an access into one or two blocks and calls through the function
  pointer (`MissFn`).

The programs run in `EngineM`: an `Engine` is everything they read or write.
-/

open Hoare

namespace Valgrind.Cachegrind

open Replacement (lru bip fifo)

/-! ## Pointers -/

-- There are four policies, numbered from 0.
instance four_ne : NeZero 4 := ⟨by decide⟩

/-- The three simulated caches. -/
inductive Level
  | i1 | d1 | ll
  deriving DecidableEq, Repr

/-- A pointer to a `cache_t2`: a result cache, or `&policies[i].X`. -/
inductive CacheRef
  | main (l : Level)
  | shadow (i : Fin 4) (l : Level)
  deriving DecidableEq, Repr

/-- A pointer to a `cachesim_setref_is_miss_*` function. -/
inductive MissFn
  | basic (p : Replacement)
  | dip | dip3 | dip3a | dueling
  deriving DecidableEq, Repr

/-- `miss_functions`. -/
def missFunctions : Fin 4 → Replacement := ![.lru, .fifo, .bip, .random]

/-- `names`. -/
def names : Fin 4 → String := ![ "LRU", "FIFO", "BIP", "RANDOM"]

/-! ## Miss histories -/

/-- The fields of a `policy` that `store_misses_history` works on, for one of D1 and LL. -/
structure MissHistory where
  /-- `array_misses_D1`, `array_misses_LL`. -/
  arrayMisses : List ℤ
  /-- `misses_D1`, `misses_DL`. -/
  misses : ℕ
  historicMisses : ℤ
  onlineMisses : ℤ
  bitResultCounter : ℕ
  deriving Repr

/-- `if (x > hi) x = hi; if (x < 0) x = 0;` -/
def clampTo (hi x : ℤ) : ℤ :=
  let x := if hi < x then hi else x
  if x < 0 then 0 else x

/-- `store_misses_history`, on the fields of the level it is asked for. -/
def storeMissesHistory (windowCounter : ℤ) (lastValue : Bool) (h : MissHistory) :
    Except Fault (ℤ × MissHistory) :=
  let value : ℤ := if lastValue then 1 else 0
  if windowCounter = 1 then .ok (value, h)
  else
    match h.arrayMisses[h.bitResultCounter]? with
    | none => .error .heapOutOfRange
    | some old =>
      let historic := if value = old then h.historicMisses
        else if lastValue then h.historicMisses + 1 else h.historicMisses - 1
      let online := if lastValue then h.onlineMisses + 1 else h.onlineMisses - 1
      let counter := h.bitResultCounter + 1
      .ok (clampTo windowCounter historic,
        { arrayMisses := h.arrayMisses.set h.bitResultCounter value
          misses := if lastValue then h.misses + 1 else h.misses
          historicMisses := clampTo windowCounter historic
          onlineMisses := clampTo windowCounter online
          bitResultCounter := if windowCounter ≤ counter then 0 else counter })

/-! ## The state -/

/-- `policy`, without its three caches. -/
structure Policy where
  d1 : MissHistory
  ll : MissHistory
  uses : ℕ
  missesIL : ℕ
  missesI1 : ℕ
  isMissFunc : MissFn
  name : String
  deriving Repr

/-- What the set functions read and write: the caches, the policies, the selectors of dip and dip_3
and the random stream. -/
structure Engine where
  caches : CacheRef → CacheT2
  policies : Fin 4 → Policy
  psel : ℕ
  psel1 : ℕ
  psel2 : ℕ
  psel3 : ℕ
  dataBlocks : ℕ
  rand : RandomStream

abbrev EngineM := StateT Engine (Except Fault)

/-- A set function applied through a pointer to a cache. -/
def onCache (f : SetrefFn) (c : CacheRef) (setNo : ℕ) (tag : UWord) : EngineM Bool := fun e =>
  match f (e.caches c) setNo tag e.rand with
  | .error fault => .error fault
  | .ok (miss, cache, rand) =>
    .ok (miss, { e with caches := Function.update e.caches c cache, rand := rand })

/-- An update of `policies[i]`. -/
def Engine.setPolicy (i : Fin 4) (f : Policy → Policy) (e : Engine) : Engine :=
  { e with policies := Function.update e.policies i (f (e.policies i)) }

/-- `store_misses_history(&policies[i], last_value, False)`. -/
def storeD1 (windowCounter : ℤ) (i : Fin 4) (lastValue : Bool) : EngineM PUnit := fun e =>
  match storeMissesHistory windowCounter lastValue (e.policies i).d1 with
  | .error fault => .error fault
  | .ok (_, h) => .ok (⟨⟩, e.setPolicy i fun p => { p with d1 := h })

/-- `store_misses_history(&policies[i], last_value, True)`. -/
def storeLL (windowCounter : ℤ) (i : Fin 4) (lastValue : Bool) : EngineM PUnit := fun e =>
  match storeMissesHistory windowCounter lastValue (e.policies i).ll with
  | .error fault => .error fault
  | .ok (_, h) => .ok (⟨⟩, e.setPolicy i fun p => { p with ll := h })

section

variable (opts : Options) {e : Engine} {c : CacheRef} {n : ℕ}

/-- A replacement function called through a pointer to a cache. -/
def Replacement.call (p : Replacement) (c : CacheRef) (setNo : ℕ) (tag : UWord) : EngineM Bool :=
  onCache (p.setref opts.bipThrottleParameter) c setNo tag

variable {opts} in
/-- A call inside the cache. -/
theorem Replacement.call_of_lt (p : Replacement)
    (h : (n : ℤ) < (e.caches c).sets ∧ 1 ≤ (e.caches c).assoc) (tag : UWord) :
    let ways := p.waysFn opts.bipThrottleParameter (e.caches c).ways ((e.caches c).row n) tag e.rand
    p.call opts c n tag e
      = .ok (ways.1, { e with
          caches := Function.update e.caches c ((e.caches c).writeRow n ways.2.1)
          rand := ways.2.2 }) := by
  dsimp only
  rw [Replacement.call, onCache, setref_eq_onRow, onRow_of_lt h]

variable {opts} in
/-- …and outside. -/
theorem Replacement.call_of_not_lt (p : Replacement)
    (h : ¬ ((n : ℤ) < (e.caches c).sets ∧ 1 ≤ (e.caches c).assoc)) (tag : UWord) :
    p.call opts c n tag e = .error .setOutOfRange := by
  rw [Replacement.call, onCache, setref_eq_onRow, onRow, if_neg h]

variable {opts} in
/-- A returning call was in range, and changed one cache. -/
theorem Replacement.call_ok {p : Replacement} {tag : UWord}
    {e' : Engine} {miss : Bool} (h : p.call opts c n tag e = .ok (miss, e')) :
    ((n : ℤ) < (e.caches c).sets ∧ 1 ≤ (e.caches c).assoc)
      ∧ miss = (p.waysFn opts.bipThrottleParameter (e.caches c).ways ((e.caches c).row n) tag
          e.rand).1
      ∧ e'.caches = Function.update e.caches c ((e.caches c).writeRow n
          (p.waysFn opts.bipThrottleParameter (e.caches c).ways ((e.caches c).row n) tag
            e.rand).2.1) := by
  rcases em ((n : ℤ) < (e.caches c).sets ∧ 1 ≤ (e.caches c).assoc) with hlt | hge
  · rw [p.call_of_lt hlt] at h
    cases h
    exact ⟨hlt, rfl, rfl⟩
  · rw [p.call_of_not_lt hge] at h
    cases h

/-! ## `dip` and `dip_3` -/

/-- `if (psel < psel_max) psel++;` -/
def pselUp (psel : ℕ) : ℕ := if psel < 15 then psel + 1 else psel

/-- `if (psel > 0) psel--;` -/
def pselDown (psel : ℕ) : ℕ := if psel > 0 then psel - 1 else psel

/-- `psel_msb`. -/
def pselMsb : ℕ := 8

/-- The update of `psel` by the two shadow results. -/
def dipSelect (isMissLru isMissBip : Bool) (psel : ℕ) : ℕ :=
  let psel := if isMissLru then pselUp psel else psel
  if isMissBip then pselDown psel else psel

/-- `cachesim_setref_is_miss_dip`. -/
def cachesimSetrefIsMissDip (c : CacheRef) (setNo : ℕ) (tag : UWord) : EngineM Bool :=
  match c with
  | .main .d1 => do
    let isMissLru ← lru.call opts (.shadow 0 .d1) setNo tag
    let isMissBip ← bip.call opts (.shadow 2 .d1) setNo tag
    modify fun e => { e with psel := dipSelect isMissLru isMissBip e.psel }
    let e ← get
    (if pselMsb ≤ e.psel then bip.call opts c setNo tag
      else lru.call opts c setNo tag)
  | .main .ll => do
    let _ ← lru.call opts (.shadow 0 .ll) setNo tag
    let _ ← bip.call opts (.shadow 2 .ll) setNo tag
    lru.call opts c setNo tag
  | _ => do
    let _ ← lru.call opts (.shadow 0 .i1) setNo tag
    let _ ← bip.call opts (.shadow 2 .i1) setNo tag
    lru.call opts c setNo tag

/-- The three shadow references of `dip_3` at a level, and of `dip_3a` at LL and I1: the second one,
to the policy named FIFO, goes through `cachesim_setref_is_miss_lru`. -/
def dip3Shadows (l : Level) (setNo : ℕ) (tag : UWord) : EngineM (Bool × Bool × Bool) := do
  let isMissLru ← lru.call opts (.shadow 0 l) setNo tag
  let isMissFifo ← lru.call opts (.shadow 1 l) setNo tag
  let isMissBip ← bip.call opts (.shadow 2 l) setNo tag
  return (isMissLru, isMissFifo, isMissBip)

/-- The update of `psel_1`, `psel_2` and `psel_3` by the three shadow results. -/
def dip3Select (isMissLru isMissFifo isMissBip : Bool) (e : Engine) : Engine :=
  let e := if isMissLru then { e with psel1 := pselUp e.psel1, psel2 := pselUp e.psel2 } else e
  let e := if isMissBip then { e with psel2 := pselDown e.psel2, psel3 := pselUp e.psel3 } else e
  if isMissFifo then { e with psel1 := pselDown e.psel1, psel3 := pselDown e.psel3 } else e

/-- The policy `dip_3` takes to be the best one. -/
def dip3Best (e : Engine) : Replacement :=
  if pselMsb ≤ e.psel1 ∧ pselMsb ≤ e.psel3 then .fifo
  else if e.psel1 < pselMsb ∧ e.psel2 < pselMsb then .lru
  else if pselMsb ≤ e.psel2 ∧ e.psel3 < pselMsb then .bip
  else .lru

/-- `cachesim_setref_is_miss_dip3`. -/
def cachesimSetrefIsMissDip3 (c : CacheRef) (setNo : ℕ) (tag : UWord) : EngineM Bool :=
  match c with
  | .main .d1 => do
    let (isMissLru, isMissFifo, isMissBip) ← dip3Shadows opts .d1 setNo tag
    modify (dip3Select isMissLru isMissFifo isMissBip)
    let e ← get
    (dip3Best e).call opts c setNo tag
  | .main .ll => do
    let _ ← dip3Shadows opts .ll setNo tag
    lru.call opts c setNo tag
  | _ => do
    let _ ← dip3Shadows opts .i1 setNo tag
    lru.call opts c setNo tag

/-! ## `dip_3a` and cache duelling -/

/-- The policy with the fewest misses in its D1 history, lru, fifo and bip in this order. -/
def historyBest (e : Engine) : Replacement :=
  let lru := (e.policies 0).d1.historicMisses
  let fifo := (e.policies 1).d1.historicMisses
  let bip := (e.policies 2).d1.historicMisses
  if lru ≤ fifo ∧ lru ≤ bip then .lru
  else if fifo ≤ lru ∧ fifo ≤ bip then .fifo
  else if bip ≤ fifo ∧ bip ≤ lru then .bip
  else .lru

/-- The three shadow references of `dip_3a` at D1, each recorded in its history. -/
def dip3aShadows (setNo : ℕ) (tag : UWord) : EngineM PUnit := do
  let isMissLru ← lru.call opts (.shadow 0 .d1) setNo tag
  storeD1 opts.windowCounter 0 isMissLru
  let isMissFifo ← fifo.call opts (.shadow 1 .d1) setNo tag
  storeD1 opts.windowCounter 1 isMissFifo
  let isMissBip ← bip.call opts (.shadow 2 .d1) setNo tag
  storeD1 opts.windowCounter 2 isMissBip

/-- `cachesim_setref_is_miss_dip3a`. -/
def cachesimSetrefIsMissDip3a (c : CacheRef) (setNo : ℕ) (tag : UWord) : EngineM Bool :=
  match c with
  | .main .d1 => do
    dip3aShadows opts setNo tag
    let e ← get
    (historyBest e).call opts c setNo tag
  | .main .ll => do
    let _ ← dip3Shadows opts .ll setNo tag
    lru.call opts c setNo tag
  | _ => do
    let _ ← dip3Shadows opts .i1 setNo tag
    lru.call opts c setNo tag

/-- The leader sets of a policy: `base + k * 5` for `k < 32`, where the tests for `k = 9, 19, 29`
read `2 + k * 5` for every policy. -/
def leaderSets (base : ℕ) : List ℕ :=
  (List.range 32).map fun k => (if k = 9 ∨ k = 19 ∨ k = 29 then 2 else base) + k * 5

/-- A reference to a leader set of policy `i`. -/
def leaderRef (i : Fin 4) (p : Replacement) (c : CacheRef) (setNo : ℕ) (tag : UWord) :
    EngineM Bool := do
  modify fun e =>
    { e.setPolicy i fun p => { p with uses := p.uses + 1 } with dataBlocks := e.dataBlocks + 1 }
  let miss ← p.call opts c setNo tag
  storeD1 opts.windowCounter i miss
  return miss

/-- `cachesim_setref_is_miss_dueling`. -/
def cachesimSetrefIsMissDueling (c : CacheRef) (setNo : ℕ) (tag : UWord) : EngineM Bool :=
  match c with
  | .main .i1 => lru.call opts c setNo tag
  | .main .ll => do
    let miss ← lru.call opts c setNo tag
    storeLL opts.windowCounter 0 miss
    return miss
  | _ =>
    if setNo ∈ leaderSets 1 then leaderRef opts 0 .lru c setNo tag
    else if setNo ∈ leaderSets 2 then leaderRef opts 1 .fifo c setNo tag
    else if setNo ∈ leaderSets 3 then leaderRef opts 2 .bip c setNo tag
    else do
      let e ← get
      (historyBest e).call opts c setNo tag

/-! ## The function pointer and `cachesim_ref_is_miss` -/

/-- A call through a function pointer. -/
def MissFn.call : MissFn → CacheRef → ℕ → UWord → EngineM Bool
  | .basic p => p.call opts
  | .dip => cachesimSetrefIsMissDip opts
  | .dip3 => cachesimSetrefIsMissDip3 opts
  | .dip3a => cachesimSetrefIsMissDip3a opts
  | .dueling => cachesimSetrefIsMissDueling opts

/-- The block of an address: `a >> c->line_size_bits`. -/
def Geometry.block (c : Geometry) (a : Addr) : UWord := a >>> c.lineSizeBits.toNat

/-- The block of the last byte: `(a + size - 1) >> c->line_size_bits`. -/
def Geometry.lastBlock (c : Geometry) (a : Addr) (size : ℕ) : UWord :=
  c.block ((a + size + (2 ^ 64 - 1)) % 2 ^ 64)

/-- The set of a block: `block & c->sets_min_1`, a `UInt`. -/
def Geometry.setOf (c : Geometry) (block : UWord) : ℕ := (block &&& toULong c.setsMin1) % 2 ^ 32

/-- `cachesim_ref_is_miss`, with `cachesim_setref_is_miss` as its first argument. -/
def cachesimRefIsMiss (f : MissFn) (c : CacheRef) (a : Addr) (size : ℕ) : EngineM Bool := do
  let e ← get
  let cache := e.caches c
  let block1 := cache.block a
  let block2 := cache.lastBlock a size
  (if block1 = block2 then f.call opts c (cache.setOf block1) block1
    else if block1 + 1 = block2 then do
      let miss1 ← f.call opts c (cache.setOf block1) block1
      let miss2 ← f.call opts c (cache.setOf block2) block2
      return miss1 || miss2
    else throw .straddle)

variable {opts}

/-- An access within one block. -/
theorem cachesimRefIsMiss_of_eq {f : MissFn} {a : Addr} {size : ℕ}
    (h : (e.caches c).block a = (e.caches c).lastBlock a size) :
    cachesimRefIsMiss opts f c a size e
      = f.call opts c ((e.caches c).setOf ((e.caches c).block a)) ((e.caches c).block a) e := by
  rw [cachesimRefIsMiss, bind_of_ok (get_run e), if_pos h]

end

end Valgrind.Cachegrind
