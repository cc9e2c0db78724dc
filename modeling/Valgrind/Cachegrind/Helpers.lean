import Valgrind.Cachegrind.Sim

/-!
# Cachegrind/Helpers — the `log_*` helpers of `cg_main.c`

The helpers are what instrumented code calls; a run of the client is a sequence of such calls
(`HelperCall`), interleaved with client requests that set the adaptive policy.  A helper for
several events is the sequence of the helpers for one.

A data helper also prints the source line of its instruction if the file name contains
`clo_c_file`, which is empty by default: `VG_(strstr)` then always succeeds.
-/

open Hoare

namespace Valgrind.Cachegrind

variable {L : Type}

/-- `InstrInfo`. -/
structure InstrInfo (L : Type) where
  instrAddr : Addr
  instrLen : ℕ
  parent : L
  deriving DecidableEq, Repr

/-- `VG_(strstr)(haystack, needle) != NULL`. -/
def vgStrstr (haystack needle : String) : Bool :=
  haystack.toList.tails.any fun t => needle.toList.isPrefixOf t

/-! ## Counter updates -/

section

variable [DecidableEq L]

/-- An update of a line record. -/
def onLine (l : L) (f : LineCC → LineCC) : SimM L PUnit := modify fun s =>
  { s with lines := Function.update s.lines l (f (s.lines l)) }

/-- `n->parent->X.a++;` -/
def countAccess (m : CCRef L) : SimM L PUnit :=
  modify fun s => { s with lines := addCC m 1 0 0 s.lines }

end

/-! ## The helpers -/

section

variable [DecidableEq L] (opts : Options)

/-- `log_1Ir`. -/
def log1Ir (n : InstrInfo L) : SimM L PUnit := countAccess ⟨n.parent, .ir⟩

/-- `log_2Ir`. -/
def log2Ir (n n2 : InstrInfo L) : SimM L PUnit := do
  log1Ir n
  log1Ir n2

/-- `log_3Ir`. -/
def log3Ir (n n2 n3 : InstrInfo L) : SimM L PUnit := do
  log1Ir n
  log1Ir n2
  log1Ir n3

/-- `log_1IrGen_0D_cache_access`. -/
def log1IrGen0DCacheAccess (n : InstrInfo L) : SimM L PUnit := do
  cachesimI1DorefGen opts ⟨n.parent, .ir⟩ n.instrAddr n.instrLen
  countAccess ⟨n.parent, .ir⟩

/-- `log_1IrNoX_0D_cache_access`. -/
def log1IrNoX0DCacheAccess (n : InstrInfo L) : SimM L PUnit := do
  cachesimI1DorefNoX opts ⟨n.parent, .ir⟩ n.instrAddr n.instrLen
  countAccess ⟨n.parent, .ir⟩

/-- `log_2IrNoX_0D_cache_access`. -/
def log2IrNoX0DCacheAccess (n n2 : InstrInfo L) : SimM L PUnit := do
  log1IrNoX0DCacheAccess opts n
  log1IrNoX0DCacheAccess opts n2

/-- `log_3IrNoX_0D_cache_access`. -/
def log3IrNoX0DCacheAccess (n n2 n3 : InstrInfo L) : SimM L PUnit := do
  log1IrNoX0DCacheAccess opts n
  log1IrNoX0DCacheAccess opts n2
  log1IrNoX0DCacheAccess opts n3

/-- The trace line of a data access. -/
def traceLine (tag : String) (l : L) : SimM L PUnit := modify fun s =>
  let loc := (s.lines l).loc
  if vgStrstr loc.file opts.cloCFile then
    { s with stdout := s.stdout ++ [tag ++ " " ++ toString (toUInt loc.line) ++ "\n"] }
  else s

/-- A data access, whose size becomes a `UChar`. -/
def logData (tag : String) (kind : AccessKind) (n : InstrInfo L) (dataAddr : Addr)
    (dataSize : ℕ) : SimM L PUnit := do
  traceLine opts tag n.parent
  cachesimD1Doref opts ⟨n.parent, kind⟩ dataAddr (toUChar dataSize)
  countAccess ⟨n.parent, kind⟩

/-- `log_0Ir_1Dr_cache_access`. -/
def log0Ir1DrCacheAccess : InstrInfo L → Addr → ℕ → SimM L PUnit := logData opts "L" .dr

/-- `log_0Ir_1Dw_cache_access`. -/
def log0Ir1DwCacheAccess : InstrInfo L → Addr → ℕ → SimM L PUnit := logData opts "Lw" .dw

/-- `log_1IrNoX_1Dr_cache_access`. -/
def log1IrNoX1DrCacheAccess (n : InstrInfo L) (dataAddr : Addr) (dataSize : ℕ) :
    SimM L PUnit := do
  log1IrNoX0DCacheAccess opts n
  log0Ir1DrCacheAccess opts n dataAddr dataSize

/-- `log_1IrNoX_1Dw_cache_access`. -/
def log1IrNoX1DwCacheAccess (n : InstrInfo L) (dataAddr : Addr) (dataSize : ℕ) :
    SimM L PUnit := do
  log1IrNoX0DCacheAccess opts n
  log0Ir1DwCacheAccess opts n dataAddr dataSize

/-- `log_cond_branch`. -/
def logCondBranch (n : InstrInfo L) (taken : ℤ) : SimM L PUnit := fun s =>
  match doCondBranchPredict opts.loZeroBits n.instrAddr taken s.predictor with
  | .error fault => .error fault
  | .ok (mispredict, p) =>
    onLine n.parent (fun cc =>
      { cc with Bc := ⟨cc.Bc.b + 1, cc.Bc.mp + mispredict.toNat⟩ }) { s with predictor := p }

/-- `log_ind_branch`. -/
def logIndBranch (n : InstrInfo L) (actualDst : Addr) : SimM L PUnit := fun s =>
  let (mispredict, p) := doIndBranchPredict opts.loZeroBits n.instrAddr actualDst s.predictor
  onLine n.parent (fun cc =>
    { cc with Bi := ⟨cc.Bi.b + 1, cc.Bi.mp + mispredict.toNat⟩ }) { s with predictor := p }

/-- `cg_set_cache_replacement_policy`. -/
def cgSetCacheReplacementPolicy (policy : ℤ) : SimM L PUnit :=
  modify fun s => { s with currentAdaptative := policy }

end

/-- Predicting a branch faults in an assertion only. -/
theorem doCondBranchPredict_error {k : ℕ} {a : Addr} {taken : ℤ} {p : Predictor} {f : Fault}
    (h : doCondBranchPredict k a taken p = .error f) : f = .assertion := by
  unfold doCondBranchPredict at h
  dsimp only at h
  split at h
  · cases h
    rfl
  split at h
  · cases h
    rfl
  · cases h

/-! ## Runs -/

/-- A call that reaches the tool while the client runs. -/
inductive HelperCall (L : Type)
  | log1Ir (n : InstrInfo L)
  | log2Ir (n n2 : InstrInfo L)
  | log3Ir (n n2 n3 : InstrInfo L)
  | log1IrGen0D (n : InstrInfo L)
  | log1IrNoX0D (n : InstrInfo L)
  | log2IrNoX0D (n n2 : InstrInfo L)
  | log3IrNoX0D (n n2 n3 : InstrInfo L)
  | log1IrNoX1Dr (n : InstrInfo L) (dataAddr : Addr) (dataSize : ℕ)
  | log1IrNoX1Dw (n : InstrInfo L) (dataAddr : Addr) (dataSize : ℕ)
  | log0Ir1Dr (n : InstrInfo L) (dataAddr : Addr) (dataSize : ℕ)
  | log0Ir1Dw (n : InstrInfo L) (dataAddr : Addr) (dataSize : ℕ)
  | logCondBranch (n : InstrInfo L) (taken : ℤ)
  | logIndBranch (n : InstrInfo L) (actualDst : Addr)
  | setPolicy (policy : ℤ)

section Run

variable [DecidableEq L] (opts : Options) {loc : L → CodeLoc} {r : RandomStream}
  {calls : List (HelperCall L)}

/-- The call, executed. -/
def HelperCall.exec : HelperCall L → SimM L PUnit
  | .log1Ir n => Cachegrind.log1Ir n
  | .log2Ir n n2 => Cachegrind.log2Ir n n2
  | .log3Ir n n2 n3 => Cachegrind.log3Ir n n2 n3
  | .log1IrGen0D n => log1IrGen0DCacheAccess opts n
  | .log1IrNoX0D n => log1IrNoX0DCacheAccess opts n
  | .log2IrNoX0D n n2 => log2IrNoX0DCacheAccess opts n n2
  | .log3IrNoX0D n n2 n3 => log3IrNoX0DCacheAccess opts n n2 n3
  | .log1IrNoX1Dr n a size => log1IrNoX1DrCacheAccess opts n a size
  | .log1IrNoX1Dw n a size => log1IrNoX1DwCacheAccess opts n a size
  | .log0Ir1Dr n a size => log0Ir1DrCacheAccess opts n a size
  | .log0Ir1Dw n a size => log0Ir1DwCacheAccess opts n a size
  | .logCondBranch n taken => Cachegrind.logCondBranch opts n taken
  | .logIndBranch n dst => Cachegrind.logIndBranch opts n dst
  | .setPolicy policy => cgSetCacheReplacementPolicy policy

/-- A run: the calls in order. -/
def runCalls (calls : List (HelperCall L)) : SimM L PUnit := calls.forM (·.exec opts)

section Keeps

variable {opts} {Q : Engine → Prop} {R : MissFn → Prop} {E : Fault → Prop}
  (hGen : ∀ (m : CCRef L) a size, Keeps (Sim.Has Q R) (cachesimI1DorefGen opts m a size) E)
  (hNoX : ∀ (m : CCRef L) a size, Keeps (Sim.Has Q R) (cachesimI1DorefNoX opts m a size) E)
  (hD1 : ∀ (m : CCRef L) a size, Keeps (Sim.Has Q R) (cachesimD1Doref opts m a size) E)
  (hE : E .assertion)
include hGen hNoX hD1 hE

/-- **One call** keeps what the three `doref` functions keep. -/
theorem keeps_exec (c : HelperCall L) : Keeps (Sim.Has Q R) (c.exec opts) E := by
  have hcount : ∀ m : CCRef L, Keeps (Sim.Has Q R) (countAccess m) E := fun m =>
    .modify fun _ hs => hs
  have hone : ∀ n : InstrInfo L, Keeps (Sim.Has Q R) (log1IrNoX0DCacheAccess opts n) E := fun n =>
    .bind (hNoX _ _ _) fun _ => hcount _
  have hdata : ∀ tag kind (n : InstrInfo L) a size,
      Keeps (Sim.Has Q R) (logData opts tag kind n a size) E := by
    intro tag kind n a size
    refine .bind (.modify fun s hs => ?_) fun _ =>
      .bind (hD1 _ _ _) fun _ => hcount _
    dsimp only
    split <;> exact hs
  cases c with
  | log1Ir n => exact hcount _
  | log2Ir n n2 => exact .bind (hcount _) fun _ => hcount _
  | log3Ir n n2 n3 => exact .bind (hcount _) fun _ => .bind (hcount _) fun _ => hcount _
  | log1IrGen0D n => exact .bind (hGen _ _ _) fun _ => hcount _
  | log1IrNoX0D n => exact hone n
  | log2IrNoX0D n n2 => exact .bind (hone n) fun _ => hone n2
  | log3IrNoX0D n n2 n3 => exact .bind (hone n) fun _ => .bind (hone n2) fun _ => hone n3
  | log1IrNoX1Dr n a size | log1IrNoX1Dw n a size =>
    exact .bind (hone n) fun _ => hdata _ _ n a size
  | log0Ir1Dr n a size | log0Ir1Dw n a size => exact hdata _ _ n a size
  | logCondBranch n taken =>
    intro s hs
    rw [HelperCall.exec, Cachegrind.logCondBranch]
    split
    · rename_i fault hf
      rw [doCondBranchPredict_error hf]
      exact ends_error hE
    · exact ends_ok hs
  | logIndBranch n dst => exact fun s hs => ends_ok hs
  | setPolicy policy => exact .modify fun _ hs => hs

/-- **A whole run** does, too. -/
theorem keeps_runCalls (calls : List (HelperCall L)) :
    Keeps (Sim.Has Q R) (runCalls opts calls) E :=
  .forM fun c _ => keeps_exec hGen hNoX hD1 hE c

end Keeps

/-- A state some run from start-up reaches. -/
def Reachable (I1c D1c LLc : CacheT) (s : Sim L) : Prop :=
  ∃ (loc : L → CodeLoc) (r : RandomStream) (s₀ : Sim L) (calls : List (HelperCall L)),
    cachesimInitcaches opts I1c D1c LLc loc r = .ok s₀ ∧ runCalls opts calls s₀ = .ok (⟨⟩, s)

/-- Whether the run from start-up returns, and a test of its first and last state is passed. -/
def reaches (I1c D1c LLc : CacheT) (loc : L → CodeLoc) (r : RandomStream)
    (calls : List (HelperCall L)) (P : Sim L → Sim L → Prop) [∀ s t, Decidable (P s t)] : Bool :=
  match cachesimInitcaches opts I1c D1c LLc loc r with
  | .error _ => false
  | .ok s₀ =>
    match runCalls opts calls s₀ with
    | .error _ => false
    | .ok (_, s) => P s₀ s

theorem exists_of_reaches {I1c D1c LLc : CacheT}
    {P : Sim L → Sim L → Prop} [∀ s t, Decidable (P s t)]
    (h : reaches opts I1c D1c LLc loc r calls P = true) :
    ∃ s₀ s, cachesimInitcaches opts I1c D1c LLc loc r = .ok s₀
      ∧ runCalls opts calls s₀ = .ok (⟨⟩, s) ∧ P s₀ s := by
  unfold reaches at h
  split at h
  · cases h
  split at h
  · cases h
  · exact ⟨_, _, ‹_›, ‹_›, of_decide_eq_true h⟩

/-- Whether the run from start-up stops with a given fault. -/
def faults (I1c D1c LLc : CacheT) (loc : L → CodeLoc) (r : RandomStream)
    (calls : List (HelperCall L)) (fault : Fault) : Bool :=
  match cachesimInitcaches opts I1c D1c LLc loc r with
  | .error _ => false
  | .ok s₀ =>
    match runCalls opts calls s₀ with
    | .error f => f = fault
    | .ok _ => false

theorem exists_of_faults {I1c D1c LLc : CacheT}
    {fault : Fault}
    (h : faults opts I1c D1c LLc loc r calls fault = true) :
    ∃ s₀, cachesimInitcaches opts I1c D1c LLc loc r = .ok s₀
      ∧ runCalls opts calls s₀ = .error fault := by
  unfold faults at h
  split at h
  · cases h
  split at h
  · rename_i s₀ hinit _ f hrun
    rw [of_decide_eq_true h] at hrun
    exact ⟨s₀, hinit, hrun⟩
  · cases h

end Run

/-- The data references a call makes: none or one. -/
def HelperCall.dataRefs : HelperCall L → ℕ
  | .log1IrNoX1Dr .. | .log1IrNoX1Dw .. | .log0Ir1Dr .. | .log0Ir1Dw .. => 1
  | _ => 0

end Valgrind.Cachegrind
