import Valgrind.Cachegrind.BranchPred
import Valgrind.Cachegrind.Engine

/-!
# Cachegrind/Sim — `cachesim_initcaches` and the three `doref` functions

The tool's state is the engine, the function pointer `cachesim_setref_is_miss`, the statics of
`cachesim_D1_doref` and the line counters; the counters an access bumps are named by a `CCRef`,
which stands for the pair of pointers `m1`, `mL`.

The function pointer is a global that most modes rewrite as they go:

* `cachesim_I1_doref_Gen` leaves it on the last shadow policy, `cachesim_I1_doref_NoX` does not
  touch it;
* `cachesim_D1_doref` leaves it on the last shadow policy (fixed window, learning), on the selected
  one (sliding window, online) or on the one the client asked for (adaptive, naive).
-/

open Hoare

namespace Valgrind.Cachegrind

/-! ## Counters -/

/-- `CacheCC`. -/
structure CacheCC where
  a : ℕ
  m1 : ℕ
  mL : ℕ
  deriving DecidableEq, Repr

/-- `BranchCC`. -/
structure BranchCC where
  b : ℕ
  mp : ℕ
  deriving DecidableEq, Repr

/-- `CodeLoc`. -/
structure CodeLoc where
  file : String
  fn : String
  line : ℤ
  deriving DecidableEq, Repr

/-- `LineCC`. -/
structure LineCC where
  loc : CodeLoc
  Ir : CacheCC
  Dr : CacheCC
  Dw : CacheCC
  Bc : BranchCC
  Bi : BranchCC
  deriving DecidableEq, Repr

/-- A line as `get_lineCC` creates it. -/
def LineCC.new (loc : CodeLoc) : LineCC := ⟨loc, ⟨0, 0, 0⟩, ⟨0, 0, 0⟩, ⟨0, 0, 0⟩, ⟨0, 0⟩, ⟨0, 0⟩⟩

/-- Which of its `CacheCC`s an access counts in. -/
inductive AccessKind
  | ir | dr | dw
  deriving DecidableEq, Repr

/-- The `CacheCC` of a kind. -/
def LineCC.get (cc : LineCC) : AccessKind → CacheCC
  | .ir => cc.Ir
  | .dr => cc.Dr
  | .dw => cc.Dw

/-- …and its update. -/
def LineCC.modify (cc : LineCC) (f : CacheCC → CacheCC) : AccessKind → LineCC
  | .ir => { cc with Ir := f cc.Ir }
  | .dr => { cc with Dr := f cc.Dr }
  | .dw => { cc with Dw := f cc.Dw }

/-- A pointer to a `CacheCC` of a line: the arguments `m1` and `mL` point into it. -/
structure CCRef (L : Type) where
  line : L
  kind : AccessKind
  deriving DecidableEq, Repr

/-! ## The state -/

/-- The state of the tool, over a type `L` of line records. -/
structure Sim (L : Type) where
  engine : Engine
  /-- `cachesim_setref_is_miss`. -/
  setrefIsMiss : MissFn
  /-- `missesI1` and `missesIL`, which are set together. -/
  missesI : Option (CCRef L)
  accessCounter : ℕ
  learningCounter : ℕ
  blocks : ℕ
  lastAddress : ℕ
  fileCounter : ℕ
  indexSelectedPolicy : Fin 4
  prevIndexSelectedPolicy : Fin 4
  indexMinMissesPolicy : Fin 4
  /-- `fp != NULL`. -/
  fp : Bool
  /-- The lines written to the learning files. -/
  learningFile : List String
  currentAdaptative : ℤ
  lines : L → LineCC
  predictor : Predictor
  /-- The lines printed to standard output. -/
  stdout : List String

abbrev SimM (L : Type) := StateT (Sim L) (Except Fault)

variable {L : Type}

/-- A program of the engine, run in the tool. -/
def onEngine {α : Type} (m : EngineM α) : SimM L α := fun s =>
  match m s.engine with
  | .error fault => .error fault
  | .ok (a, e) => .ok (a, { s with engine := e })

/-- A program of the engine returns in the tool iff it does in the engine. -/
theorem onEngine_eq_ok_iff {α : Type} {m : EngineM α} {s s' : Sim L} {a : α} :
    onEngine m s = .ok (a, s') ↔ ∃ e, m s.engine = .ok (a, e) ∧ s' = { s with engine := e } := by
  unfold onEngine
  cases m s.engine with
  | error fault => simp
  | ok p =>
    obtain ⟨b, e⟩ := p
    simp only [Except.ok.injEq, Prod.mk.injEq]
    constructor
    · rintro ⟨rfl, rfl⟩
      exact ⟨e, ⟨rfl, rfl⟩, rfl⟩
    · rintro ⟨_, ⟨rfl, rfl⟩, rfl⟩
      exact ⟨rfl, rfl⟩

/-- `cachesim_setref_is_miss = f;` -/
def setSetref (f : MissFn) : SimM L PUnit := modify fun s => { s with setrefIsMiss := f }

/-- An update of `policies[i]`. -/
def onPolicy (i : Fin 4) (f : Policy → Policy) : SimM L PUnit :=
  modify fun s => { s with engine := s.engine.setPolicy i f }

/-- `policies[i].uses++;` -/
def countUse (i : Fin 4) : SimM L PUnit := onPolicy i fun p => { p with uses := p.uses + 1 }

/-- `data_blocks++;` -/
def countDataBlock : SimM L PUnit :=
  modify fun s => { s with engine := { s.engine with dataBlocks := s.engine.dataBlocks + 1 } }

/-- The line counters with something added to the `CacheCC` a pointer names. -/
def addCC [DecidableEq L] (m : CCRef L) (da d1 dL : ℕ) (lines : L → LineCC) : L → LineCC :=
  Function.update lines m.line
    ((lines m.line).modify (fun cc => ⟨cc.a + da, cc.m1 + d1, cc.mL + dL⟩) m.kind)

/-- `(*m1) += n1; (*mL) += nL;` -/
def addMisses [DecidableEq L] (m : CCRef L) (n1 nL : ℕ) : SimM L PUnit :=
  modify fun s => { s with lines := addCC m 0 n1 nL s.lines }

/-- The indices of the loops over `policies`. -/
def policyIndices : List (Fin 4) := [0, 1, 2, 3]

section Doref

variable [DecidableEq L] (opts : Options)

/-- `cachesim_ref_is_miss` through the global function pointer. -/
def refIsMiss (c : CacheRef) (a : Addr) (size : ℕ) : SimM L Bool := do
  let s ← get
  onEngine (cachesimRefIsMiss opts s.setrefIsMiss c a size)

/-- The reference to the result caches that ends every `doref`: first level, then LL on a miss. -/
def resultRef (l : Level) (m : CCRef L) (a : Addr) (size : ℕ) : SimM L PUnit := do
  let miss ← refIsMiss opts (.main l) a size
  (if miss then do
    addMisses m 1 0
    let missL ← refIsMiss opts (.main .ll) a size
    (if missL then addMisses m 0 1 else pure ⟨⟩)
  else pure ⟨⟩)

/-! ## Instruction reads -/

/-- One iteration of the shadow loop of `cachesim_I1_doref_Gen`. -/
def shadowIr (a : Addr) (size : ℕ) (i : Fin 4) : SimM L PUnit := do
  let s ← get
  setSetref (s.engine.policies i).isMissFunc
  let miss ← refIsMiss opts (.shadow i .i1) a size
  (if miss then do
    onPolicy i fun p => { p with missesI1 := p.missesI1 + 1 }
    let missL ← refIsMiss opts (.shadow i .ll) a size
    (if missL then onPolicy i fun p => { p with missesIL := p.missesIL + 1 } else pure ⟨⟩)
  else pure ⟨⟩)

/-- `cachesim_I1_doref_Gen`. -/
def cachesimI1DorefGen (m : CCRef L) (a : Addr) (size : ℕ) : SimM L PUnit := do
  modify fun s => { s with missesI := some m }
  (if opts.cacheReplacementPolicy.runsShadows then policyIndices.forM (shadowIr opts a size)
    else pure ⟨⟩)
  resultRef opts .i1 m a size

/-- One iteration of the shadow loop of `cachesim_I1_doref_NoX`: the set numbers come from the
result caches. -/
def shadowIrNoX (i1Set : ℕ) (block : UWord) (i : Fin 4) : SimM L PUnit := do
  let s ← get
  let miss ← onEngine ((s.engine.policies i).isMissFunc.call opts (.shadow i .i1) i1Set block)
  (if miss then do
    let s ← get
    let llSet := (s.engine.caches (.main .ll)).setOf block
    onPolicy i fun p => { p with missesI1 := p.missesI1 + 1 }
    let missL ← onEngine ((s.engine.policies i).isMissFunc.call opts (.shadow i .ll) llSet block)
    (if missL then onPolicy i fun p => { p with missesIL := p.missesIL + 1 } else pure ⟨⟩)
  else pure ⟨⟩)

/-- The reference to the result caches that ends `cachesim_I1_doref_NoX`. -/
def resultRefNoX (i1Set : ℕ) (block : UWord) (m : CCRef L) : SimM L PUnit := do
  let s ← get
  let miss ← onEngine (s.setrefIsMiss.call opts (.main .i1) i1Set block)
  (if miss then do
    let s ← get
    let llSet := (s.engine.caches (.main .ll)).setOf block
    addMisses m 1 0
    let missL ← onEngine (s.setrefIsMiss.call opts (.main .ll) llSet block)
    (if missL then addMisses m 0 1 else pure ⟨⟩)
  else pure ⟨⟩)

/-- `cachesim_I1_doref_NoX`, which does not look at the size. -/
def cachesimI1DorefNoX (m : CCRef L) (a : Addr) (_size : ℕ) : SimM L PUnit := do
  modify fun s => { s with missesI := some m }
  let s ← get
  let block := (s.engine.caches (.main .i1)).block a
  let i1Set := (s.engine.caches (.main .i1)).setOf block
  (if opts.cacheReplacementPolicy.runsShadows then
      policyIndices.forM (shadowIrNoX opts i1Set block)
    else pure ⟨⟩)
  resultRefNoX opts i1Set block m

/-- `cachesim_is_IrNoX`. -/
def cachesimIsIrNoX (s : Sim L) (a : Addr) (size : ℕ) : Bool :=
  let I1 := s.engine.caches (.main .i1)
  let LL := s.engine.caches (.main .ll)
  if I1.lineSizeBits ≠ LL.lineSizeBits then false
  else decide (I1.block a = I1.lastBlock a size)

/-! ## Data references: the shadow policies -/

/-- The figure a selecting approach compares: the history of the window approaches, the bare
counter of the online one. -/
def cost (p : Policy) : ℤ :=
  if opts.cacheReplacementPolicy = .online then p.d1.onlineMisses else p.d1.historicMisses

/-- One iteration of the shadow loop of `cachesim_D1_doref`, from the least cost so far to the
next. -/
def shadowDref (a : Addr) (size : ℕ) (minMisses : ℕ) (i : Fin 4) : SimM L ℕ := do
  let s ← get
  setSetref (s.engine.policies i).isMissFunc
  let miss ← refIsMiss opts (.shadow i .d1) a size
  onEngine (storeD1 opts.windowCounter i miss)
  (if miss then do
    let missL ← refIsMiss opts (.shadow i .ll) a size
    onEngine (storeLL opts.windowCounter i missL)
  else pure ⟨⟩)
  let s ← get
  let misses := toULong (cost opts (s.engine.policies i))
  (if misses < minMisses then do
    modify fun s => { s with indexMinMissesPolicy := i }
    return misses
  else return minMisses)

/-- The shadow loop of `cachesim_D1_doref`, from `min_misses = ULLONG_MAX`. -/
def shadowDrefs (a : Addr) (size : ℕ) : SimM L PUnit := do
  let _ ← policyIndices.foldlM (shadowDref opts a size) (2 ^ 64 - 1)
  return ⟨⟩

/-! ## Data references: the fixed window -/

/-- `copy_caches(&policies[source].X, &policies[i].X)`. -/
def copyLevel (source i : Fin 4) (l : Level) : EngineM PUnit := fun e =>
  match copyCaches (e.caches (.shadow source l)) (e.caches (.shadow i l)) with
  | .error fault => .error fault
  | .ok c => .ok (⟨⟩, { e with caches := Function.update e.caches (.shadow i l) c })

/-- …for the three caches. -/
def copyPolicyCaches (source i : Fin 4) : SimM L PUnit :=
  [Level.i1, .d1, .ll].forM fun l => onEngine (copyLevel source i l)

/-- The counters of the best policy are added to the result: the data misses to the line of this
access, the instruction misses to the line of the last instruction read. -/
def transferMisses (m : CCRef L) (i : Fin 4) : SimM L PUnit := do
  countUse i
  let s ← get
  addMisses m (s.engine.policies i).d1.misses (s.engine.policies i).ll.misses
  (match s.missesI with
    | none => throw .nullPointer
    | some mI => addMisses mI (s.engine.policies i).missesI1 (s.engine.policies i).missesIL)

/-- `VG_(calloc)` of a history array. -/
def freshArray : List ℤ := List.replicate opts.windowCounter.toNat 0

/-- A policy at the start of a window: the histories and totals are cleared, the running counters
stay. -/
def cleanPolicy (p : Policy) : Policy :=
  { p with
    d1 := { p.d1 with arrayMisses := freshArray opts, historicMisses := 0, misses := 0 }
    ll := { p.ll with arrayMisses := freshArray opts, historicMisses := 0, misses := 0 }
    missesIL := 0
    missesI1 := 0 }

/-- One iteration of the loop that closes a window. -/
def closePolicy (m : CCRef L) (i : Fin 4) : SimM L PUnit := do
  let s ← get
  (if i ≠ s.indexMinMissesPolicy then copyPolicyCaches s.indexMinMissesPolicy i
    else transferMisses m i)
  onPolicy i (cleanPolicy opts)

/-- The end of a window. -/
def closeWindow (m : CCRef L) : SimM L PUnit := do
  policyIndices.forM (closePolicy opts m)
  modify fun s => { s with blocks := 0 }
  countDataBlock

/-- The fixed-window branch of `cachesim_D1_doref`. -/
def fixedWindowDref (m : CCRef L) (a : Addr) (size : ℕ) : SimM L PUnit := do
  shadowDrefs opts a size
  let s ← get
  (if toULong opts.windowCounter ≤ s.blocks then closeWindow opts m else pure ⟨⟩)

/-! ## Data references: selection -/

/-- The selected policy becomes the result policy. -/
def useSelected : SimM L PUnit := do
  let s ← get
  setSetref (s.engine.policies s.indexSelectedPolicy).isMissFunc
  countUse s.indexSelectedPolicy

/-- The sliding window's preamble. -/
def enterSliding : SimM L PUnit := do
  useSelected
  modify fun s => { s with prevIndexSelectedPolicy := s.indexSelectedPolicy }

/-- Switch if the best policy beats the selected one by more than the threshold. -/
def selectPolicy : SimM L PUnit := do
  modify fun s =>
    if cost opts (s.engine.policies s.indexMinMissesPolicy)
        < cost opts (s.engine.policies s.indexSelectedPolicy) - opts.switchingThresholdParameter
    then { s with indexSelectedPolicy := s.indexMinMissesPolicy } else s
  useSelected

/-- The switch on `current_adaptative_cache_replacement_policy`: the function, and the policy whose
use is counted. -/
def adaptativeChoice (policy : ℤ) : MissFn × Option (Fin 4) :=
  if policy = 0 then (.basic .lru, some 0)
  else if policy = 4 then (.basic .lip, none)
  else if policy = 1 then (.basic .random, some 3)
  else if policy = 2 then (.basic .fifo, some 1)
  else if policy = 3 then (.basic .bip, some 2)
  else if policy = 5 then (.dip, none)
  else (.basic .lru, some 0)

/-- The adaptive and naive approaches take the policy that was asked for. -/
def useAdaptative : SimM L PUnit := do
  let s ← get
  setSetref (adaptativeChoice s.currentAdaptative).1
  (match (adaptativeChoice s.currentAdaptative).2 with
    | some i => countUse i
    | none => pure ⟨⟩)

/-- `current_adaptative_cache_replacement_policy = VG_(random)(NULL) % 4;` -/
def drawAdaptative : SimM L PUnit := modify fun s =>
  let (draw, rand) := vgRandom s.engine.rand
  { s with currentAdaptative := (draw % 4 : ℕ), engine := { s.engine with rand := rand } }

/-! ## Data references: learning -/

/-- Open the next `learning_%d.dat` if there is none or ten million accesses went into the last: the
name has room for one digit. -/
def openLearning : SimM L Bool := do
  let s ← get
  (if s.fp ∧ s.accessCounter ≤ 10000000 then return true
  else if 10 ≤ s.fileCounter then throw .bufferOverrun
  else do
    modify fun s =>
      { s with
        accessCounter := 0
        fileCounter := s.fileCounter + 1
        fp := opts.canOpen s.fileCounter }
    return opts.canOpen s.fileCounter)

/-- One iteration of the learning loop: the policy's bit is set on a hit in D1. -/
def shadowLearn (a : Addr) (size : ℕ) (resultBits : ℕ) (i : Fin 4) : SimM L ℕ := do
  let s ← get
  setSetref (s.engine.policies i).isMissFunc
  let miss ← refIsMiss opts (.shadow i .d1) a size
  (if miss then do
    let _ ← refIsMiss opts (.shadow i .ll) a size
    return resultBits
  else return resultBits + 2 ^ (i : ℕ))

/-- The line `"%ld %d %d %lld\n"` of a learning file. -/
def learningLine (s : Sim L) (a : Addr) (resultBits : ℕ) : String :=
  let D1 := s.engine.caches (.shadow 0 .d1)
  toString (Int.bmod ((a : ℤ) - s.lastAddress) (2 ^ 64)) ++ " "
    ++ toString (toInt (D1.setOf (D1.block a))) ++ " " ++ toString resultBits ++ " "
    ++ toString (Int.bmod a (2 ^ 64)) ++ "\n"

/-- The learning branch of `cachesim_D1_doref`. -/
def learningDref (m : CCRef L) (a : Addr) (size : ℕ) : SimM L PUnit := do
  setSetref (.basic .lru)
  resultRef opts .d1 m a size
  let opened ← openLearning opts
  (if opened then do
    let resultBits ← policyIndices.foldlM (shadowLearn opts a size) 0
    modify fun s =>
      { s with
        learningCounter := s.learningCounter + 1
        learningFile := s.learningFile ++ [learningLine s a resultBits]
        lastAddress := a }
  else pure ⟨⟩)

/-! ## `cachesim_D1_doref` -/

/-- The end of `cachesim_D1_doref` for the traditional policies and the result cache. -/
def dataRef (m : CCRef L) (a : Addr) (size : ℕ) : SimM L PUnit := do
  countDataBlock
  resultRef opts .d1 m a size

/-- What `cachesim_D1_doref` does before `dataRef`, for the modes that get there. -/
def prepareDref (a : Addr) (size : ℕ) : SimM L PUnit :=
  match opts.cacheReplacementPolicy with
  | .slidingWindow => do
    enterSliding
    shadowDrefs opts a size
    selectPolicy opts
  | .online => do
    shadowDrefs opts a size
    selectPolicy opts
  | .naive => do
    drawAdaptative
    useAdaptative
  | .adaptative => useAdaptative
  | _ => pure ⟨⟩

/-- `cachesim_D1_doref`. -/
def cachesimD1Doref (m : CCRef L) (a : Addr) (size : ℕ) : SimM L PUnit := do
  modify fun s => { s with accessCounter := s.accessCounter + 1, blocks := s.blocks + 1 }
  (match opts.cacheReplacementPolicy with
    | .learning => learningDref opts m a size
    | .fixedWindow => fixedWindowDref opts m a size
    | _ => do
      prepareDref opts a size
      dataRef opts m a size)

end Doref

/-! ## What references keep -/

/-- A property of the engine and one of the function pointer. -/
def Sim.Has (Q : Engine → Prop) (R : MissFn → Prop) (s : Sim L) : Prop :=
  Q s.engine ∧ R s.setrefIsMiss

section Keeps

open Spec (get_bind)

variable {α : Type} {opts : Options} {Q : Engine → Prop} {R : MissFn → Prop} {E : Fault → Prop}

/-- A program of the engine, in the tool. -/
theorem spec_onEngine {m : EngineM α} {P : Engine → Prop} {Q : α → Engine → Prop}
    (h : Spec P m Q E) {R : Sim L → Prop}
    (hR : ∀ (s : Sim L) e, R s → R { s with engine := e }) :
    Spec (fun s => P s.engine ∧ R s) (onEngine m) (fun a s => Q a s.engine ∧ R s) E := by
  rintro s ⟨hP, hRs⟩
  unfold onEngine
  split
  · rename_i fault hm
    exact ends_error (h.error hP hm)
  · rename_i a e hm
    exact ends_ok ⟨h.ok hP hm, hR s e hRs⟩

theorem keeps_onEngine {m : EngineM α} (h : Keeps Q m E) :
    Keeps (Sim.Has Q R) (onEngine m : SimM L α) E :=
  spec_onEngine h (R := fun s => R s.setrefIsMiss) fun _ _ h => h

variable (hcall : ∀ f e, R f → Q e → ∀ l block,
    Keeps Q (f.call opts (.main l) ((e.caches (.main l)).setOf block) block) E)
include hcall

/-- A reference to a result cache. -/
theorem keeps_refIsMiss (hE : E .straddle) (l : Level) (a : Addr) (size : ℕ) :
    Keeps (Sim.Has Q R) (refIsMiss opts (.main l) a size : SimM L Bool) E :=
  get_bind fun s hs => keeps_onEngine (get_bind fun e he =>
    have hset := hcall s.setrefIsMiss e hs.2 he l
    .ite (fun _ => hset _) fun _ => .ite (fun _ => .bind (hset _) fun _ =>
      Spec.bind (hset _) fun _ => Keeps.pure) fun _ => Spec.throw hE)

variable [DecidableEq L]

theorem keeps_resultRef (hE : E .straddle) (l : Level) (m : CCRef L) (a : Addr) (size : ℕ) :
    Keeps (Sim.Has Q R) (resultRef opts l m a size) E :=
  Spec.bind (keeps_refIsMiss hcall hE l a size) fun _ => Keeps.when fun _ =>
    .bind (.modify fun _ hs => hs) fun _ =>
      .bind (keeps_refIsMiss hcall hE .ll a size) fun _ =>
        Keeps.when fun _ => Keeps.modify fun _ hs => hs

/-- **An instruction read, on the generic path.** -/
theorem keeps_I1DorefGen (hE : E .straddle) (m : CCRef L) (a : Addr) (size : ℕ)
    (hshadow : opts.cacheReplacementPolicy.runsShadows = true →
      ∀ i, Keeps (Sim.Has Q R) (shadowIr opts a size i : SimM L PUnit) E) :
    Keeps (Sim.Has Q R) (cachesimI1DorefGen opts m a size) E :=
  Spec.bind (Keeps.modify fun _ hs => hs) fun _ => Spec.bind
    (Keeps.when fun hruns => Spec.forM fun i _ => hshadow hruns i) fun _ =>
      keeps_resultRef hcall hE .i1 m a size

/-- **An instruction read, on the fast path.** -/
theorem keeps_I1DorefNoX (m : CCRef L) (a : Addr) (size : ℕ)
    (hshadow : opts.cacheReplacementPolicy.runsShadows = true → ∀ e, Q e → ∀ block i, Keeps
      (Sim.Has Q R) (shadowIrNoX opts ((e.caches (.main .i1)).setOf block) block i : SimM L PUnit) E) :
    Keeps (Sim.Has Q R) (cachesimI1DorefNoX opts m a size) E :=
  Spec.bind (Keeps.modify fun _ hs => hs) fun _ => get_bind fun _ hs => Spec.bind
    (Keeps.when fun hruns => Spec.forM fun i _ => hshadow hruns _ hs.1 _ i) fun _ =>
      get_bind fun _ hs₁ => Spec.bind (keeps_onEngine (hcall _ _ hs₁.2 hs.1 .i1 _)) fun _ =>
        Keeps.when fun _ => get_bind fun _ hs₂ => Spec.bind (Keeps.modify fun _ hs => hs) fun _ =>
          .bind (keeps_onEngine (hcall _ _ hs₂.2 hs₂.1 .ll _)) fun _ =>
            Keeps.when fun _ => Keeps.modify fun _ hs => hs

end Keeps

/-! ## `cachesim_initcaches` -/

/-- The configuration of the result D1 cache: `dip_3` and `dip_3a` pay for their directories. -/
def resultD1 (opts : Options) (D1c : CacheT) : CacheT :=
  if opts.cacheReplacementPolicy.isDip3 ∧ opts.overheadAllowed then
    { D1c with size := toInt (D1c.size - 3 * (32 * D1c.assoc * D1c.lineSize)) }
  else D1c

/-- The configuration of the shadow D1 caches: 32 sets for `dip_3` and `dip_3a`. -/
def shadowD1 (opts : Options) (D1c : CacheT) : CacheT :=
  if opts.cacheReplacementPolicy.isDip3 then
    { D1c with size := toInt (32 * D1c.assoc * D1c.lineSize) }
  else D1c

/-- The function `cachesim_initcaches` leaves the pointer on. -/
def initialMissFn : CgCachePolicy → MissFn
  | .lruPolicy => .basic .lru
  | .lipPolicy => .basic .lip
  | .randomPolicy => .basic .random
  | .fifoPolicy => .basic .fifo
  | .bipPolicy => .basic .bip
  | .dipPolicy => .dip
  | .dip3Policy => .dip3
  | .dip3AgeingPolicy => .dip3a
  | .cacheDueling => .dueling
  | _ => .basic .lru

/-- An empty history; `misses` starts at half the window in the LL history of the online approach.
-/
def MissHistory.init (opts : Options) (misses : ℕ) : MissHistory :=
  ⟨freshArray opts, misses, 0, 0, 0⟩

/-- `policies[i]` as `cachesim_initcaches` leaves it. -/
def Policy.init (opts : Options) (i : Fin 4) : Policy where
  d1 := .init opts 0
  ll := .init opts
    (if opts.cacheReplacementPolicy = .online then toULong (opts.windowCounter) / 2 else 0)
  uses := 0
  missesIL := 0
  missesI1 := 0
  isMissFunc := .basic (missFunctions i)
  name := names i

/-- The engine over six fresh caches: every policy has its own copy of the last three. -/
def Engine.init (opts : Options) (I1 D1 LL I1s D1s LLs : CacheT2) (r : RandomStream) : Engine where
  caches
    | .main .i1 => I1
    | .main .d1 => D1
    | .main .ll => LL
    | .shadow _ .i1 => I1s
    | .shadow _ .d1 => D1s
    | .shadow _ .ll => LLs
  policies := Policy.init opts
  psel := 8
  psel1 := 8
  psel2 := 8
  psel3 := 8
  dataBlocks := 0
  rand := r

/-- The tool at start-up, its statics zero. -/
def Sim.start (opts : Options) (e : Engine) (loc : L → CodeLoc) : Sim L where
  engine := e
  setrefIsMiss := initialMissFn opts.cacheReplacementPolicy
  missesI := none
  accessCounter := 0
  learningCounter := 0
  blocks := 0
  lastAddress := 0
  fileCounter := 0
  indexSelectedPolicy := 0
  prevIndexSelectedPolicy := 0
  indexMinMissesPolicy := 0
  fp := false
  learningFile := []
  currentAdaptative := 0
  lines l := LineCC.new (loc l)
  predictor := Predictor.init
  stdout := []

/-- `cachesim_initcaches`. -/
def cachesimInitcaches (opts : Options) (I1c D1c LLc : CacheT) (loc : L → CodeLoc)
    (r : RandomStream) : Except Fault (Sim L) := do
  let I1 ← cachesimInitcache I1c
  let D1 ← cachesimInitcache (resultD1 opts D1c)
  let LL ← cachesimInitcache LLc
  let I1s ← cachesimInitcache I1c
  let D1s ← cachesimInitcache (shadowD1 opts (resultD1 opts D1c))
  let LLs ← cachesimInitcache LLc
  (if opts.windowCounter < 0 then .error .outOfMemory
  else .ok (Sim.start opts (Engine.init opts I1 D1 LL I1s D1s LLs r) loc))

/-- **What start-up leaves**: the shadow I1 and LL caches are copies of the result ones. -/
theorem initcaches_ok {opts : Options} {I1c D1c LLc : CacheT} {loc : L → CodeLoc}
    {r : RandomStream} {s : Sim L} (h : cachesimInitcaches opts I1c D1c LLc loc r = .ok s) :
    ∃ I1 D1 LL D1s, cachesimInitcache I1c = .ok I1
      ∧ cachesimInitcache (resultD1 opts D1c) = .ok D1 ∧ cachesimInitcache LLc = .ok LL
      ∧ cachesimInitcache (shadowD1 opts (resultD1 opts D1c)) = .ok D1s
      ∧ 0 ≤ opts.windowCounter
      ∧ s = Sim.start opts (Engine.init opts I1 D1 LL I1 D1s LL r) loc := by
  unfold cachesimInitcaches at h
  obtain ⟨I1, hI, h⟩ := bind_eq_ok.mp h
  obtain ⟨D1, hD, h⟩ := bind_eq_ok.mp h
  obtain ⟨LL, hL, h⟩ := bind_eq_ok.mp h
  obtain ⟨I1s, hIs, h⟩ := bind_eq_ok.mp h
  obtain ⟨D1s, hDs, h⟩ := bind_eq_ok.mp h
  obtain ⟨LLs, hLs, h⟩ := bind_eq_ok.mp h
  cases hI.symm.trans hIs
  cases hL.symm.trans hLs
  split_ifs at h with hw
  cases h
  exact ⟨I1, D1, LL, D1s, hI, hD, hL, hDs, not_lt.mp hw, rfl⟩

end Valgrind.Cachegrind
