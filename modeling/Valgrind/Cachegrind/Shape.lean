import Valgrind.Cachegrind.Helpers

/-!
# Cachegrind/Shape — the geometry of the caches along a run, and set numbers

No reference changes the geometry of a cache or the function of a policy: the `Shape` of the engine
is an invariant of every run.  Only the end of a fixed window writes a geometry at all, and it
copies one shadow cache onto another of the same geometry (`Shape.Regular`).

Whether a set number leaves its cache can be read off the shape: `cachesim_ref_is_miss` masks with
the set count of the cache it is given, and the selectors hand the set number of a result cache on
to the shadow caches of the same level.  So a shape whose shadow caches have at least as many sets
as the result cache of their level is safe (`Shape.Safe`).
-/

open Hoare Function

namespace Valgrind.Cachegrind

open Spec (get_bind)

variable {L : Type} {α : Type}

/-! ## Shapes -/

/-- What no reference changes. -/
@[ext] structure Shape where
  geom : CacheRef → Geometry
  func : Fin 4 → MissFn

/-- The shape of an engine. -/
def Engine.shape (e : Engine) : Shape where
  geom c := (e.caches c).toGeometry
  func i := (e.policies i).isMissFunc

/-- The shadow caches of a level are alike, and the shadow policies work on one set. -/
structure Shape.Regular (sh : Shape) : Prop where
  uniform : ∀ i j l, sh.geom (.shadow i l) = sh.geom (.shadow j l)
  basic : ∀ i, sh.func i = .basic (missFunctions i)

/-- Every cache has a set and a way, its mask is its set count less one, and a set number of a
result cache is one of its shadow caches. -/
structure Shape.Safe (sh : Shape) : Prop where
  one_le : ∀ c, 1 ≤ (sh.geom c).sets
  ways : ∀ c, 1 ≤ (sh.geom c).assoc
  mask : ∀ c, (sh.geom c).setsMin1 = (sh.geom c).sets - 1
  le_shadow : ∀ i l, (sh.geom (.main l)).sets ≤ (sh.geom (.shadow i l)).sets

/-- **A masked block is a set number.** -/
theorem Geometry.setOf_lt {g : Geometry} (h1 : 1 ≤ g.sets) (hm : g.setsMin1 = g.sets - 1)
    (block : UWord) : (g.setOf block : ℤ) < g.sets := by
  have hmask : (toULong g.setsMin1 : ℤ) ≤ g.sets - 1 := by
    rw [toULong, hm, Int.toNat_of_nonneg (Int.emod_nonneg _ (by norm_num))]
    omega
  have hle : g.setOf block ≤ toULong g.setsMin1 := (Nat.mod_le _ _).trans Nat.and_le_right
  omega

/-! ## The engine -/

/-- The engine has a given shape. -/
def HasShape (sh : Shape) (e : Engine) : Prop := e.shape = sh

/-- The faults a program may end in: a safe shape rules out set numbers out of range. -/
def Escapes (sh : Shape) (f : Fault) : Prop := sh.Safe → f ≠ .setOutOfRange

/-- The faults a set function may end in: it does not panic either. -/
structure SetFault (sh : Shape) (f : Fault) : Prop where
  escapes : Escapes sh f
  calm : f ≠ .straddle

/-- A program keeps the shape, no set number leaves its cache if the shape is safe, and there is no
panic. -/
abbrev KeepsShape (sh : Shape) (m : EngineM α) : Prop := Keeps (HasShape sh) m (SetFault sh)

variable {sh : Shape} {opts : Options} {e : Engine} {m : EngineM α} {c : CacheRef} {f : MissFn}
  {E : Fault → Prop}

theorem KeepsShape.escapes (h : KeepsShape sh m) :
    Keeps (HasShape sh) m (Escapes sh) := h.mono (fun _ hs => hs) (fun _ _ hs => hs)
      fun _ hf => hf.escapes

theorem HasShape.geom_eq (h : HasShape sh e) (c : CacheRef) :
    (e.caches c).toGeometry = sh.geom c := by rw [← h]; rfl

/-- A cache may be replaced by one of its geometry. -/
theorem HasShape.setCache (h : HasShape sh e) {k : CacheT2} (hk : k.toGeometry = sh.geom c)
    (r : RandomStream) :
    HasShape sh { e with caches := Function.update e.caches c k, rand := r } := by
  rw [← h] at hk ⊢
  refine Shape.ext (funext fun d => ?_) rfl
  rcases eq_or_ne d c with rfl | hne
  · exact (congrArg CacheT2.toGeometry (update_self d _ _)).trans hk
  · exact congrArg CacheT2.toGeometry (update_of_ne hne _ _)

/-- Writing a row keeps the shape. -/
theorem HasShape.writeRow (h : HasShape sh e) (c : CacheRef) (n : ℕ)
    (set : List UWord) (r : RandomStream) :
    HasShape sh { e with
      caches := Function.update e.caches c ((e.caches c).writeRow n set), rand := r } :=
  h.setCache (k := (e.caches c).writeRow n set) (h.geom_eq c) r

/-- Updating a policy keeps the shape if its function stays. -/
theorem HasShape.setPolicy (h : HasShape sh e) (i : Fin 4) {f : Policy → Policy}
    (hf : ∀ p, (f p).isMissFunc = p.isMissFunc) : HasShape sh (e.setPolicy i f) := by
  rw [← h]
  refine Shape.ext rfl (funext fun j => ?_)
  rcases eq_or_ne j i with rfl | hne
  · exact (congrArg Policy.isMissFunc (update_self j _ _)).trans (hf _)
  · exact congrArg Policy.isMissFunc (update_of_ne hne _ _)

/-- **One replacement function.** -/
theorem keepsShape_call (p : Replacement) {n : ℕ}
    (hn : sh.Safe → (n : ℤ) < (sh.geom c).sets) (tag : UWord) :
    KeepsShape sh (p.call opts c n tag) := by
  intro e he
  rcases em ((n : ℤ) < (e.caches c).sets ∧ 1 ≤ (e.caches c).assoc) with hlt | hge
  · rw [p.call_of_lt hlt]
    exact ends_ok (he.writeRow c n _ _)
  · rw [p.call_of_not_lt hge]
    rw [he.geom_eq] at hge
    exact ends_error ⟨fun hsafe => absurd ⟨hn hsafe, hsafe.ways c⟩ hge, Fault.noConfusion⟩

/-- `store_misses_history` faults in the heap only. -/
theorem storeMissesHistory_error {w : ℤ} {v : Bool} {h : MissHistory} {f : Fault}
    (hf : storeMissesHistory w v h = .error f) : f = .heapOutOfRange := by
  unfold storeMissesHistory at hf
  dsimp only at hf
  split at hf
  · cases hf
  split at hf
  · cases hf
    rfl
  · cases hf

theorem keepsShape_storeD1 (w : ℤ) (i : Fin 4) (v : Bool) : KeepsShape sh (storeD1 w i v) := by
  intro e he
  unfold storeD1
  split
  · rename_i fault hf
    rw [storeMissesHistory_error hf]
    exact ends_error ⟨fun _ => Fault.noConfusion, Fault.noConfusion⟩
  · exact ends_ok (he.setPolicy i fun _ => rfl)

theorem keepsShape_storeLL (w : ℤ) (i : Fin 4) (v : Bool) : KeepsShape sh (storeLL w i v) := by
  intro e he
  unfold storeLL
  split
  · rename_i fault hf
    rw [storeMissesHistory_error hf]
    exact ends_error ⟨fun _ => Fault.noConfusion, Fault.noConfusion⟩
  · exact ends_ok (he.setPolicy i fun _ => rfl)

section

variable {l : Level} {n : ℕ}

theorem keepsShape_leaderRef (i : Fin 4) (p : Replacement)
    (hn : sh.Safe → (n : ℤ) < (sh.geom c).sets) (tag : UWord) :
    KeepsShape sh (leaderRef opts i p c n tag) := by
  refine .bind (.modify fun e he => ?_) fun _ =>
    .bind (keepsShape_call p hn tag) fun _ =>
      Spec.bind (keepsShape_storeD1 _ i _) fun _ => Keeps.pure
  exact he.setPolicy i (f := fun p => { p with uses := p.uses + 1 }) fun _ => rfl

variable (hn : sh.Safe → (n : ℤ) < (sh.geom (.main l)).sets)
include hn

/-- A set number of a result cache, at a shadow cache of its level. -/
theorem lt_shadow (i : Fin 4) (h : sh.Safe) :
    (n : ℤ) < (sh.geom (.shadow i l)).sets := (hn h).trans_le (h.le_shadow i l)

theorem keepsShape_dip3Shadows (tag : UWord) : KeepsShape sh (dip3Shadows opts l n tag) :=
  .bind (keepsShape_call .lru (lt_shadow hn 0) tag) fun _ =>
    .bind (keepsShape_call .lru (lt_shadow hn 1) tag) fun _ =>
      Spec.bind (keepsShape_call .bip (lt_shadow hn 2) tag) fun _ => Keeps.pure

omit hn in
/-- The shape does not see the selectors. -/
theorem hasShape_dip3Select (h : HasShape sh e) (x y z : Bool) :
    HasShape sh (dip3Select x y z e) := by
  cases x <;> cases y <;> cases z <;> exact h

theorem keepsShape_dip (tag : UWord) :
    KeepsShape sh (cachesimSetrefIsMissDip opts (.main l) n tag) := by
  cases l with
  | d1 =>
    refine .bind (keepsShape_call .lru (lt_shadow hn 0) tag) fun _ =>
      .bind (keepsShape_call .bip (lt_shadow hn 2) tag) fun _ =>
        Spec.bind (Keeps.modify fun e he => he) fun _ =>
          get_bind fun e _ => ?_
    exact .ite (fun _ => keepsShape_call .bip hn tag) fun _ => keepsShape_call .lru hn tag
  | ll | i1 =>
    exact .bind (keepsShape_call .lru (lt_shadow hn 0) tag) fun _ =>
      .bind (keepsShape_call .bip (lt_shadow hn 2) tag) fun _ => keepsShape_call .lru hn tag

theorem keepsShape_dip3 (tag : UWord) :
    KeepsShape sh (cachesimSetrefIsMissDip3 opts (.main l) n tag) := by
  cases l with
  | d1 =>
    exact .bind (keepsShape_dip3Shadows hn tag) fun x =>
      .bind (.modify fun e he => hasShape_dip3Select he x.1 x.2.1 x.2.2) fun _ =>
        get_bind fun e _ => keepsShape_call (dip3Best e) hn tag
  | ll | i1 => exact .bind (keepsShape_dip3Shadows hn tag) fun _ => keepsShape_call .lru hn tag

omit hn in
theorem keepsShape_dip3aShadows (hn : sh.Safe → (n : ℤ) < (sh.geom (.main .d1)).sets)
    (tag : UWord) : KeepsShape sh (dip3aShadows opts n tag) :=
  .bind (keepsShape_call .lru (lt_shadow hn 0) tag) fun _ =>
    .bind (keepsShape_storeD1 _ 0 _) fun _ =>
      .bind (keepsShape_call .fifo (lt_shadow hn 1) tag) fun _ =>
        .bind (keepsShape_storeD1 _ 1 _) fun _ =>
          .bind (keepsShape_call .bip (lt_shadow hn 2) tag) fun _ => keepsShape_storeD1 _ 2 _

theorem keepsShape_dip3a (tag : UWord) :
    KeepsShape sh (cachesimSetrefIsMissDip3a opts (.main l) n tag) := by
  cases l with
  | d1 =>
    exact .bind (keepsShape_dip3aShadows hn tag) fun _ =>
      get_bind fun e _ => keepsShape_call (historyBest e) hn tag
  | ll | i1 => exact .bind (keepsShape_dip3Shadows hn tag) fun _ => keepsShape_call .lru hn tag

theorem keepsShape_dueling (tag : UWord) :
    KeepsShape sh (cachesimSetrefIsMissDueling opts (.main l) n tag) := by
  cases l with
  | d1 =>
    refine .ite (fun _ => keepsShape_leaderRef 0 .lru hn tag) fun _ =>
      .ite (fun _ => keepsShape_leaderRef 1 .fifo hn tag) fun _ =>
        .ite (fun _ => keepsShape_leaderRef 2 .bip hn tag) fun _ => ?_
    exact get_bind fun e _ => keepsShape_call (historyBest e) hn tag
  | ll =>
    exact .bind (keepsShape_call .lru hn tag) fun _ =>
      Spec.bind (keepsShape_storeLL _ 0 _) fun _ => Keeps.pure
  | i1 => exact keepsShape_call .lru hn tag

/-- **Every function, called on a result cache.** -/
theorem keepsShape_missFn (f : MissFn) (tag : UWord) :
    KeepsShape sh (f.call opts (.main l) n tag) := by
  cases f with
  | basic p => exact keepsShape_call p hn tag
  | dip => exact keepsShape_dip hn tag
  | dip3 => exact keepsShape_dip3 hn tag
  | dip3a => exact keepsShape_dip3a hn tag
  | dueling => exact keepsShape_dueling hn tag

end

/-- A masked block is a set number of its cache. -/
theorem HasShape.setOf_lt (h : HasShape sh e) (c : CacheRef) (block : UWord) (hsafe : sh.Safe) :
    ((e.caches c).setOf block : ℤ) < (sh.geom c).sets := by
  rw [h.geom_eq c]
  exact Geometry.setOf_lt (hsafe.one_le c) (hsafe.mask c) block

theorem escapes_straddle : Escapes sh .straddle := fun _ => by decide

/-- `cachesim_ref_is_miss` passes set numbers of its cache. -/
theorem keepsShape_refIsMiss
    (hf : ∀ (n : ℕ) tag, (sh.Safe → (n : ℤ) < (sh.geom c).sets) → KeepsShape sh (f.call opts c n tag))
    (a : Addr) (size : ℕ) :
    Keeps (HasShape sh) (cachesimRefIsMiss opts f c a size) (Escapes sh) := by
  refine get_bind fun e he => ?_
  have hset := fun block => (hf _ block (he.setOf_lt c block)).escapes
  exact .ite (fun _ => hset _) fun _ => .ite (fun _ => .bind (hset _) fun _ =>
    Spec.bind (hset _) fun _ => Keeps.pure) fun _ => Spec.throw escapes_straddle

/-! ## The simulator -/

/-- The function pointer is one of the replacement functions in the approaches that run all shadow
policies. -/
def PlainPointer (opts : Options) (s : Sim L) : Prop :=
  opts.cacheReplacementPolicy.runsShadows = true → ∃ p, s.setrefIsMiss = .basic p

/-- That, of a function. -/
abbrev Plain (opts : Options) (f : MissFn) : Prop :=
  opts.cacheReplacementPolicy.runsShadows = true → ∃ p, f = .basic p

/-- The engine of a state has a given shape, and the function pointer is plain. -/
def SimShape (opts : Options) (sh : Shape) (s : Sim L) : Prop :=
  HasShape sh s.engine ∧ PlainPointer opts s

/-- …and the function pointer a given value. -/
structure PointsTo (opts : Options) (sh : Shape) (f : MissFn) (s : Sim L) : Prop where
  shape : SimShape opts sh s
  pointer : s.setrefIsMiss = f

/-- A program keeps the shape, and no set number leaves its cache if the shape is safe. -/
abbrev SimKeeps (opts : Options) (sh : Shape) (m : SimM L α) : Prop :=
  Keeps (SimShape opts sh) m (Escapes sh)

theorem simKeeps_onEngine (h : Keeps (HasShape sh) m (Escapes sh)) :
    SimKeeps opts sh (onEngine m : SimM L α) := keeps_onEngine (R := Plain opts) h

theorem simKeeps_onPolicy (i : Fin 4) {f : Policy → Policy}
    (hf : ∀ p, (f p).isMissFunc = p.isMissFunc) : SimKeeps opts sh (onPolicy i f : SimM L PUnit) :=
  .modify fun _ hs => ⟨HasShape.setPolicy hs.1 i hf, hs.2⟩

/-- A reference to a set of a result cache, through any function. -/
theorem keepsShape_main (f : MissFn) (e : Engine) (_ : Plain opts f) (he : HasShape sh e) (l : Level)
    (block : UWord) : Keeps (HasShape sh)
      (f.call opts (.main l) ((e.caches (.main l)).setOf block) block) (Escapes sh) :=
  (keepsShape_missFn (he.setOf_lt _ block) f block).escapes

theorem simKeeps_refIsMiss (l : Level) (a : Addr) (size : ℕ) :
    SimKeeps opts sh (refIsMiss opts (.main l) a size : SimM L Bool) :=
  keeps_refIsMiss keepsShape_main escapes_straddle l a size

theorem pointsTo_onEngine
    (h : Keeps (HasShape sh) m (Escapes sh)) :
    Keeps (PointsTo opts sh f) (onEngine m : SimM L α) (Escapes sh) :=
  (spec_onEngine h (R := fun s => PlainPointer opts s ∧ s.setrefIsMiss = f) fun _ _ h => h).mono
    (fun _ h => ⟨h.shape.1, h.shape.2, h.pointer⟩) (fun _ _ h => ⟨⟨h.1, h.2.1⟩, h.2.2⟩) fun _ h => h

theorem pointsTo_onPolicy (i : Fin 4) {g : Policy → Policy}
    (hg : ∀ p, (g p).isMissFunc = p.isMissFunc) :
    Keeps (PointsTo opts sh f) (onPolicy i g : SimM L PUnit) (Escapes sh) :=
  .modify fun _ hs => ⟨⟨HasShape.setPolicy hs.shape.1 i hg, hs.shape.2⟩, hs.pointer⟩

theorem simKeeps_useAdaptative (hp : opts.cacheReplacementPolicy.runsShadows = false) :
    SimKeeps opts sh (useAdaptative : SimM L PUnit) := by
  refine get_bind fun s _ => Spec.bind (Keeps.modify
    fun _ hs => ⟨hs.1, fun hruns => absurd (hp.symm.trans hruns) Bool.false_ne_true⟩) fun _ => ?_
  split
  · exact simKeeps_onPolicy _ fun _ => rfl
  · exact Keeps.pure

theorem simKeeps_openLearning : SimKeeps opts sh (openLearning opts : SimM L Bool) :=
  get_bind fun _ _ => Spec.ite (fun _ => Keeps.pure) fun _ =>
    Spec.ite (fun _ => Spec.throw fun _ => by decide) fun _ =>
      Spec.bind (Keeps.modify fun _ hs => hs) fun _ =>
        Keeps.pure

section

variable (hreg : sh.Regular) (a : Addr) (size : ℕ)
include hreg

/-- The pointer set to the function of a policy. -/
theorem simKeeps_usePolicy {i : Fin 4} {rest : SimM L α}
    (h : Keeps (PointsTo opts sh (sh.func i)) rest (Escapes sh)) :
    SimKeeps opts sh (do
      let s ← get
      setSetref (s.engine.policies i).isMissFunc
      rest) := by
  refine get_bind fun s₀ hs₀ => .bind (.modify fun s hs => ?_) fun _ =>
    h.post fun _ _ hs => hs.shape
  have hfunc : (s₀.engine.policies i).isMissFunc = sh.func i := congrArg (Shape.func · i) hs₀.1
  exact ⟨⟨hs.1, fun _ => ⟨missFunctions i, hfunc.trans (hreg.basic i)⟩⟩, hfunc⟩

/-- A reference to a shadow cache, through the function of a policy. -/
theorem pointsTo_refIsMiss (i : Fin 4) (c : CacheRef) :
    Keeps (PointsTo opts sh (sh.func i)) (refIsMiss opts c a size : SimM L Bool) (Escapes sh) := by
  refine get_bind fun s₀ hs₀ => ?_
  have hf : s₀.setrefIsMiss = .basic (missFunctions i) := hs₀.pointer.trans (hreg.basic i)
  have hkeep : Keeps (HasShape sh) (cachesimRefIsMiss opts s₀.setrefIsMiss c a size)
      (Escapes sh) := by
    rw [hf]
    exact keepsShape_refIsMiss (f := .basic (missFunctions i))
      (fun _ tag hn => keepsShape_call (missFunctions i) hn tag) a size
  exact pointsTo_onEngine hkeep

theorem simKeeps_shadowIr (i : Fin 4) :
    SimKeeps opts sh (shadowIr opts a size i : SimM L PUnit) := by
  refine simKeeps_usePolicy hreg ?_
  refine .bind (pointsTo_refIsMiss hreg a size i _) fun _ =>
    Keeps.when fun _ => ?_
  exact Spec.bind (pointsTo_onPolicy i fun _ => rfl) fun _ =>
    .bind (pointsTo_refIsMiss hreg a size i _) fun _ =>
      Keeps.when fun _ => pointsTo_onPolicy i fun _ => rfl

theorem SimShape.isMissFunc_eq {s : Sim L} (hs : SimShape opts sh s) (i : Fin 4) :
    (s.engine.policies i).isMissFunc = .basic (missFunctions i) :=
  (congrArg (Shape.func · i) hs.1).trans (hreg.basic i)

theorem simKeeps_shadowIrNoX {i1Set : ℕ}
    (hset : sh.Safe → (i1Set : ℤ) < (sh.geom (.main .i1)).sets) (block : UWord) (i : Fin 4) :
    SimKeeps opts sh (shadowIrNoX opts i1Set block i : SimM L PUnit) := by
  refine get_bind fun s₀ hs₀ => ?_
  rw [hs₀.isMissFunc_eq hreg i]
  refine .bind (simKeeps_onEngine (keepsShape_call _ (lt_shadow hset i) block).escapes) fun _ =>
    Keeps.when fun _ => ?_
  refine get_bind fun s₁ hs₁ => ?_
  rw [hs₁.isMissFunc_eq hreg i]
  refine .bind (simKeeps_onPolicy i fun _ => rfl) fun _ => ?_
  exact .bind (simKeeps_onEngine (keepsShape_call _
      (lt_shadow (HasShape.setOf_lt hs₁.1 (.main .ll) block) i) block).escapes) fun _ =>
    Keeps.when fun _ => simKeeps_onPolicy i fun _ => rfl

theorem simKeeps_shadowDref (minMisses : ℕ) (i : Fin 4) :
    SimKeeps opts sh (shadowDref opts a size minMisses i : SimM L ℕ) := by
  refine simKeeps_usePolicy hreg ?_
  refine .bind (pointsTo_refIsMiss hreg a size i _) fun _ =>
    .bind (pointsTo_onEngine (keepsShape_storeD1 _ i _).escapes) fun _ =>
      Spec.bind (Keeps.when fun _ => ?_) fun _ =>
        get_bind fun s _ => Keeps.when fun _ =>
          Spec.bind (Keeps.modify fun _ hs => ⟨hs.1, hs.2⟩)
            fun _ => Keeps.pure
  exact .bind (pointsTo_refIsMiss hreg a size i _) fun _ =>
    pointsTo_onEngine (keepsShape_storeLL _ i _).escapes

theorem simKeeps_shadowDrefs :
    SimKeeps opts sh (shadowDrefs opts a size : SimM L PUnit) :=
  Spec.bind (Spec.foldlM (simKeeps_shadowDref hreg a size) _ _) fun _ => Keeps.pure

/-- A copy within a level of a regular shape is the cache it was made from. -/
theorem copyCaches_eq_ok (he : HasShape sh e) {source i : Fin 4}
    {l : Level} {c : CacheT2}
    (hc : copyCaches (e.caches (.shadow source l)) (e.caches (.shadow i l)) = .ok c) :
    c = e.caches (.shadow source l) := by
  have hgeom : (e.caches (.shadow source l)).toGeometry = (e.caches (.shadow i l)).toGeometry := by
    rw [he.geom_eq, he.geom_eq]
    exact hreg.uniform source i l
  unfold copyCaches at hc
  split at hc
  · cases hc
    rw [← hgeom]
  · cases hc

/-- Copying keeps the shape. -/
theorem keepsShape_copyLevel (source i : Fin 4) (l : Level) :
    KeepsShape sh (copyLevel source i l) := by
  intro e he
  unfold copyLevel
  split
  · rename_i fault hf
    unfold copyCaches at hf
    split at hf
    · cases hf
    · cases hf
      exact ends_error ⟨fun _ => Fault.noConfusion, Fault.noConfusion⟩
  · rename_i c hc
    refine ends_ok (he.setCache ?_ e.rand)
    rw [copyCaches_eq_ok hreg he hc, he.geom_eq, hreg.uniform source i l]

theorem simKeeps_copyPolicyCaches (source i : Fin 4) :
    SimKeeps opts sh (copyPolicyCaches source i : SimM L PUnit) :=
  .forM fun l _ => simKeeps_onEngine (keepsShape_copyLevel hreg source i l).escapes

theorem simKeeps_useSelected :
    SimKeeps opts sh (useSelected : SimM L PUnit) := by
  refine get_bind fun s₀ hs₀ => .bind
    (.modify fun s hs => ⟨hs.1, fun _ => ?_⟩)
    fun _ => simKeeps_onPolicy _ fun _ => rfl
  exact ⟨_, hs₀.isMissFunc_eq hreg _⟩

theorem simKeeps_selectPolicy : SimKeeps opts sh (selectPolicy opts : SimM L PUnit) := by
  refine .bind (.modify fun s hs => ?_) fun _ =>
    simKeeps_useSelected hreg
  split
  · exact hs
  · exact hs

theorem simKeeps_prepareDref :
    SimKeeps opts sh (prepareDref opts a size : SimM L PUnit) := by
  unfold prepareDref
  split
  · exact .bind (.bind (simKeeps_useSelected hreg) fun _ =>
        .modify fun _ hs => hs) fun _ =>
      .bind (simKeeps_shadowDrefs hreg a size) fun _ => simKeeps_selectPolicy hreg
  · exact .bind (simKeeps_shadowDrefs hreg a size) fun _ => simKeeps_selectPolicy hreg
  · next hp =>
    exact .bind (.modify fun _ hs => hs) fun _ =>
      simKeeps_useAdaptative (by rw [hp]; rfl)
  · next hp => exact simKeeps_useAdaptative (by rw [hp]; rfl)
  · exact .pure

theorem simKeeps_shadowLearn (resultBits : ℕ) (i : Fin 4) :
    SimKeeps opts sh (shadowLearn opts a size resultBits i : SimM L ℕ) := by
  refine simKeeps_usePolicy hreg ?_
  exact .bind (pointsTo_refIsMiss hreg a size i _) fun _ => .ite
    (fun _ => Spec.bind (pointsTo_refIsMiss hreg a size i _) fun _ => Keeps.pure)
    fun _ => Keeps.pure

end

section Doref

variable [DecidableEq L] (hreg : sh.Regular) (m : CCRef L) (a : Addr) (size : ℕ)

theorem simKeeps_resultRef (l : Level) (m : CCRef L) (a : Addr) (size : ℕ) :
    SimKeeps opts sh (resultRef opts l m a size) :=
  keeps_resultRef keepsShape_main escapes_straddle l m a size

theorem simKeeps_transferMisses (m : CCRef L) (i : Fin 4) : SimKeeps opts sh (transferMisses m i) := by
  refine .bind (simKeeps_onPolicy i fun _ => rfl) fun _ => get_bind fun s _ =>
    Spec.bind (Keeps.modify fun _ hs => hs) fun _ => ?_
  split
  · exact .throw fun _ => by decide
  · exact .modify fun _ hs => hs

include hreg

theorem simKeeps_closePolicy (i : Fin 4) :
    SimKeeps opts sh (closePolicy opts m i) :=
  get_bind fun _ _ => .bind (.ite
    (fun _ => simKeeps_copyPolicyCaches hreg _ i) fun _ => simKeeps_transferMisses m i) fun _ =>
      simKeeps_onPolicy i fun _ => rfl

theorem simKeeps_closeWindow :
    SimKeeps opts sh (closeWindow opts m) :=
  .bind (.forM fun i _ => simKeeps_closePolicy hreg m i) fun _ =>
    .bind (.modify fun _ hs => hs) fun _ =>
      .modify fun _ hs => hs

theorem simKeeps_fixedWindowDref :
    SimKeeps opts sh (fixedWindowDref opts m a size) :=
  .bind (simKeeps_shadowDrefs hreg a size) fun _ => get_bind fun _ _ =>
    Keeps.when fun _ => simKeeps_closeWindow hreg m

theorem simKeeps_learningDref :
    SimKeeps opts sh (learningDref opts m a size) :=
  .bind (.modify fun _ hs => ⟨hs.1, fun _ => ⟨_, rfl⟩⟩)
    fun _ =>
    .bind (simKeeps_resultRef .d1 m a size) fun _ =>
      .bind simKeeps_openLearning fun _ => .ite
        (fun _ => .bind (.foldlM (simKeeps_shadowLearn hreg a size) _ _) fun _ =>
          .modify fun _ hs => hs)
        fun _ => Keeps.pure

/-- **A data reference.** -/
theorem simKeeps_D1Doref :
    SimKeeps opts sh (cachesimD1Doref opts m a size) := by
  refine Spec.bind (Keeps.modify fun _ hs => hs) fun _ => ?_
  split
  · exact simKeeps_learningDref hreg m a size
  · exact simKeeps_fixedWindowDref hreg m a size
  · exact .bind (simKeeps_prepareDref hreg a size) fun _ =>
      .bind (.modify fun _ hs => hs) fun _ =>
        simKeeps_resultRef .d1 m a size

/-- **A whole run.** -/
theorem simKeeps_runCalls (calls : List (HelperCall L)) :
    SimKeeps opts sh (runCalls opts calls) :=
  keeps_runCalls (R := Plain opts)
    (fun m a size => keeps_I1DorefGen keepsShape_main escapes_straddle m a size fun _ =>
      simKeeps_shadowIr hreg a size)
    (fun m a size => keeps_I1DorefNoX keepsShape_main m a size fun _ e he block =>
      simKeeps_shadowIrNoX hreg (he.setOf_lt (.main .i1) block) block)
    (simKeeps_D1Doref hreg) (fun _ => by decide) calls

end Doref

/-! ## Start-up -/

/-- The shape start-up gives the engine is regular. -/
theorem regular_init (opts : Options) (I1 D1 LL I1s D1s LLs : CacheT2) (r : RandomStream) :
    (Engine.init opts I1 D1 LL I1s D1s LLs r).shape.Regular where
  uniform i j l := by cases l <;> rfl
  basic _ := rfl

/-- The tool starts with a plain pointer. -/
theorem simShape_start (opts : Options) (e : Engine) (loc : L → CodeLoc) :
    SimShape opts e.shape (Sim.start opts e loc) := by
  refine ⟨rfl, fun hruns => ?_⟩
  change ∃ p, initialMissFn opts.cacheReplacementPolicy = .basic p
  cases hp : opts.cacheReplacementPolicy with
  | fixedWindow | slidingWindow | online | learning => exact ⟨.lru, rfl⟩
  | _ => rw [hp] at hruns; cases hruns

end Valgrind.Cachegrind
