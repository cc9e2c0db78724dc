import Valgrind.Cachegrind.Helpers

/-!
# Cachegrind/Counters — what a run does to the line counters

Most of the simulator never touches the line counters or the position in the window (`Quiet`), or
anything else outside the engine (`Outer`); what is left is

* `resultRef`, which adds one miss, or one miss at each level, to the `CacheCC` it is given;
* the end of a fixed window, which adds the misses of the whole window to the `CacheCC` of the
  access that happens to end it.

So the counters of a line stay ordered, `mL ≤ m1 ≤ a`, until a fixed window ends
(`counters_ordered`), and not beyond (`counters_not_ordered`).
-/

open Hoare Function Prod

namespace Valgrind.Cachegrind

variable {L : Type} {α : Type}

/-! ## Programs that leave the counters alone -/

/-- A part of the state outside the engine, the function pointer and the best policy. -/
class Outer {τ : Type} (v : Sim L → τ) : Prop where
  engine : ∀ (s : Sim L) e, v { s with engine := e } = v s
  pointer : ∀ (s : Sim L) f, v { s with setrefIsMiss := f } = v s
  index : ∀ (s : Sim L) i, v { s with indexMinMissesPolicy := i } = v s

section Outer

variable {τ : Type} {v : Sim L → τ} [Outer v]

theorem frames_onEngine (m : EngineM α) : Frames v (onEngine m : SimM L α) := by
  intro s a s' h
  obtain ⟨e, -, rfl⟩ := onEngine_eq_ok_iff.mp h
  exact Outer.engine s e

theorem frames_setSetref (f : MissFn) : Frames v (setSetref f : SimM L PUnit) :=
  .modify fun s => Outer.pointer s f

theorem frames_onPolicy (i : Fin 4) (f : Policy → Policy) : Frames v (onPolicy i f : SimM L PUnit) :=
  .modify fun s => Outer.engine s _

theorem frames_countDataBlock : Frames v (countDataBlock : SimM L PUnit) :=
  .modify fun s => Outer.engine s _

variable (opts : Options) (a : Addr) (size : ℕ)

theorem frames_refIsMiss (c : CacheRef) :
    Frames v (refIsMiss opts c a size : SimM L Bool) :=
  .bind .get fun _ => frames_onEngine _

theorem frames_shadowIr (i : Fin 4) :
    Frames v (shadowIr opts a size i : SimM L PUnit) := by
  refine .bind .get fun _ => .bind (frames_setSetref _) fun _ =>
    .bind (frames_refIsMiss opts a size _) fun _ => .ite ?_ (.pure _)
  exact .bind (frames_onPolicy i _) fun _ => .bind (frames_refIsMiss opts a size _)
    fun _ => .ite (frames_onPolicy i _) (.pure _)

theorem frames_shadowIrNoX (i1Set : ℕ) (block : UWord) (i : Fin 4) :
    Frames v (shadowIrNoX opts i1Set block i : SimM L PUnit) := by
  refine .bind .get fun _ => .bind (frames_onEngine _) fun _ =>
    .ite ?_ (.pure _)
  exact .bind .get fun _ => .bind (frames_onPolicy i _) fun _ =>
    .bind (frames_onEngine _) fun _ => .ite (frames_onPolicy i _) (.pure _)

theorem frames_shadowDref (minMisses : ℕ) (i : Fin 4) :
    Frames v (shadowDref opts a size minMisses i : SimM L ℕ) := by
  refine .bind .get fun _ => .bind (frames_setSetref _) fun _ =>
    .bind (frames_refIsMiss opts a size _) fun _ => .bind (frames_onEngine _) fun _ =>
      .bind (.ite ?_ (.pure _)) fun _ => .bind .get fun _ =>
        .ite (.bind (.modify fun s => Outer.index s i) fun _ => .pure _)
          (.pure _)
  exact .bind (frames_refIsMiss opts a size _) fun _ => frames_onEngine _

theorem frames_shadowDrefs : Frames v (shadowDrefs opts a size : SimM L PUnit) :=
  .bind (.foldlM (frames_shadowDref opts a size) _ _) fun _ => .pure _

end Outer

/-- The line counters and the position in the window are as before. -/
abbrev Quiet (m : SimM L α) : Prop := Frames (fun s => (s.lines, s.blocks)) m

instance : Outer fun s : Sim L => (s.lines, s.blocks) :=
  ⟨fun _ _ => rfl, fun _ _ => rfl, fun _ _ => rfl⟩

variable (opts : Options) (a : Addr) (size : ℕ)

theorem quiet_useSelected : Quiet (useSelected : SimM L PUnit) :=
  .bind .get fun _ => .bind (frames_setSetref _) fun _ => frames_onPolicy _ _

theorem quiet_selectPolicy : Quiet (selectPolicy opts : SimM L PUnit) := by
  refine .bind (.modify fun s => ?_) fun _ => quiet_useSelected
  split <;> rfl

theorem quiet_useAdaptative : Quiet (useAdaptative : SimM L PUnit) := by
  refine .bind .get fun s => .bind (frames_setSetref _) fun _ => ?_
  split
  · exact frames_onPolicy _ _
  · exact .pure _

/-- What comes before the reference to the result caches is quiet in every mode. -/
theorem quiet_prepareDref : Quiet (prepareDref opts a size : SimM L PUnit) := by
  unfold prepareDref
  split
  · refine .bind ?_ fun _ =>
      .bind (frames_shadowDrefs opts a size) fun _ => quiet_selectPolicy opts
    exact .bind quiet_useSelected fun _ => .modify fun _ => rfl
  · exact .bind (frames_shadowDrefs opts a size) fun _ => quiet_selectPolicy opts
  · exact .bind (.modify fun _ => rfl) fun _ => quiet_useAdaptative
  · exact quiet_useAdaptative
  · exact .pure _

theorem quiet_openLearning : Quiet (openLearning opts : SimM L Bool) :=
  .bind .get fun _ => .ite (.pure _) (.ite (.throw _)
    (.bind (.modify fun _ => rfl) fun _ => .pure _))

theorem quiet_shadowLearn (resultBits : ℕ) (i : Fin 4) :
    Quiet (shadowLearn opts a size resultBits i : SimM L ℕ) :=
  .bind .get fun _ => .bind (frames_setSetref _) fun _ =>
    .bind (frames_refIsMiss opts a size _) fun _ => .ite
      (.bind (frames_refIsMiss opts a size _) fun _ => .pure _) (.pure _)

section

variable [DecidableEq L] {m : CCRef L} {k : ℕ} {prog : SimM L α} {β : Type} {f : α → SimM L β}

/-! ## Programs that count a reference -/

/-- Misses added to a `CacheCC`: at most one at the first level, and one at LL only with it. -/
def Bumped (m : CCRef L) (lines lines' : L → LineCC) : Prop :=
  ∃ d1 dL, dL ≤ d1 ∧ d1 ≤ 1 ∧ lines' = addCC m 0 d1 dL lines

theorem addCC_zero (m : CCRef L) (lines : L → LineCC) : addCC m 0 0 0 lines = lines := by
  cases m with
  | mk line kind => cases kind <;> exact update_eq_self line lines

theorem addCC_addCC (m : CCRef L) (a b c a' b' c' : ℕ) (lines : L → LineCC) :
    addCC m a' b' c' (addCC m a b c lines) = addCC m (a + a') (b + b') (c + c') lines := by
  cases m with
  | mk line kind =>
    cases kind <;> simp [addCC, LineCC.modify, update_idem, add_assoc]

theorem bumped_refl (m : CCRef L) (lines : L → LineCC) : Bumped m lines lines :=
  ⟨0, 0, le_refl 0, zero_le, (addCC_zero m lines).symm⟩

/-- A program that counts one reference in `m` and moves the window by `k`. -/
def CountsRef (m : CCRef L) (k : ℕ) (prog : SimM L α) : Prop :=
  ∀ s a s', prog s = .ok (a, s') → Bumped m s.lines s'.lines ∧ s'.blocks = s.blocks + k

theorem Quiet.countsRef (h : Quiet prog) : CountsRef m 0 prog := by
  intro s a s' hm
  obtain ⟨hl, hb⟩ := mk.injEq .. ▸ h s a s' hm
  rw [hl]
  exact ⟨bumped_refl m _, hb⟩

theorem CountsRef.quiet_bind
    (h : Quiet prog) (hf : ∀ a, CountsRef m k (f a)) : CountsRef m k (prog >>= f) := by
  intro s b s'' hm
  obtain ⟨a, s', h1, h2⟩ := bind_eq_ok_iff.mp hm
  obtain ⟨hl, hb⟩ := mk.injEq .. ▸ h s a s' h1
  rw [← hl, ← hb]
  exact hf a s' b s'' h2

theorem CountsRef.bind_quiet
    (h : CountsRef m k prog) (hf : ∀ a, Quiet (f a)) : CountsRef m k (prog >>= f) := by
  intro s b s'' hm
  obtain ⟨a, s', h1, h2⟩ := bind_eq_ok_iff.mp hm
  obtain ⟨hl, hb⟩ := mk.injEq .. ▸ hf a s' b s'' h2
  rw [hl, hb]
  exact h s a s' h1

open CountsRef (quiet_bind)

/-- Counting on the way down: one at the first level, then perhaps one at LL. -/
theorem countsRef_miss (m : CCRef L) {prog : SimM L β} (hprog : Quiet prog)
    (cond : β → Bool) :
    CountsRef m 0 (do
      addMisses m 1 0
      let b ← prog
      (if cond b then addMisses m 0 1 else pure ⟨⟩)) := by
  intro s u s' h
  obtain ⟨_, s₁, h1, h⟩ := bind_eq_ok_iff.mp h
  cases h1
  obtain ⟨b, s₂, h2, h⟩ := bind_eq_ok_iff.mp h
  obtain ⟨hl, hb⟩ := mk.injEq .. ▸ hprog _ b s₂ h2
  split at h
  · cases h
    refine ⟨⟨1, 1, le_refl 1, le_refl 1, ?_⟩, hb⟩
    dsimp only
    rw [hl, addCC_addCC]
  · cases h
    exact ⟨⟨1, 0, zero_le, le_refl 1, hl⟩, hb⟩

/-- **The reference to the result caches counts one reference.** -/
theorem countsRef_resultRef (l : Level) (m : CCRef L) :
    CountsRef m 0 (resultRef opts l m a size) := by
  refine quiet_bind (frames_refIsMiss opts a size _) fun miss => ?_
  split
  · exact countsRef_miss m (frames_refIsMiss opts a size _) id
  · exact Quiet.countsRef (.pure _)

theorem countsRef_resultRefNoX (i1Set : ℕ) (block : UWord) (m : CCRef L) :
    CountsRef m 0 (resultRefNoX opts i1Set block m) := by
  refine quiet_bind .get fun s => quiet_bind (frames_onEngine _) fun miss =>
    ?_
  split
  · refine quiet_bind .get fun s => ?_
    exact countsRef_miss m (frames_onEngine _) id
  · exact Quiet.countsRef (.pure _)

/-- **An instruction read counts one reference**, on the generic path… -/
theorem countsRef_I1DorefGen (m : CCRef L) :
    CountsRef m 0 (cachesimI1DorefGen opts m a size) :=
  quiet_bind (.modify fun _ => rfl) fun _ =>
    quiet_bind (.ite (.forM (frames_shadowIr opts a size)) (.pure _))
      fun _ => countsRef_resultRef opts a size .i1 m

/-- …and on the fast one. -/
theorem countsRef_I1DorefNoX (m : CCRef L) :
    CountsRef m 0 (cachesimI1DorefNoX opts m a size) :=
  quiet_bind (.modify fun _ => rfl) fun _ =>
    quiet_bind .get fun _ =>
      quiet_bind
        (.ite (.forM (frames_shadowIrNoX opts _ _)) (.pure _))
        fun _ => countsRef_resultRefNoX opts _ _ m

theorem countsRef_dataRef (m : CCRef L) :
    CountsRef m 0 (dataRef opts m a size) :=
  quiet_bind frames_countDataBlock fun _ => countsRef_resultRef opts a size .d1 m

theorem countsRef_learningDref (m : CCRef L) :
    CountsRef m 0 (learningDref opts m a size) :=
  quiet_bind (frames_setSetref _) fun _ =>
    (countsRef_resultRef opts a size .d1 m).bind_quiet fun _ =>
      .bind (quiet_openLearning opts) fun _ => .ite
        (.bind (.foldlM (quiet_shadowLearn opts a size) _ _) fun _ =>
          .modify fun _ => rfl)
        (.pure _)

/-- The start of a data reference moves the window. -/
theorem countsRef_enter {prog : SimM L PUnit} (h : CountsRef m 0 prog) :
    CountsRef m 1 (do
      modify fun s => { s with accessCounter := s.accessCounter + 1, blocks := s.blocks + 1 }
      prog) := by
  intro s a s'' hm
  obtain ⟨b, s', h1, h2⟩ := bind_eq_ok_iff.mp hm
  cases h1
  exact h _ a s'' h2

/-- **A data reference counts one reference**, outside the fixed-window mode. -/
theorem countsRef_D1Doref (hmode : opts.cacheReplacementPolicy ≠ .fixedWindow) (m : CCRef L) :
    CountsRef m 1 (cachesimD1Doref opts m a size) := by
  refine countsRef_enter ?_
  split
  · exact countsRef_learningDref opts a size m
  · exact absurd ‹_› hmode
  · exact quiet_bind (quiet_prepareDref opts a size) fun _ => countsRef_dataRef opts a size m

/-- …and in it as long as the window does not end with it. -/
theorem D1Doref_counts_of_open {a : Addr} {size : ℕ} {s s' : Sim L} {u : PUnit}
    (hopen : opts.cacheReplacementPolicy = .fixedWindow →
      s.blocks + 1 < toULong opts.windowCounter)
    (h : cachesimD1Doref opts m a size s = .ok (u, s')) :
    Bumped m s.lines s'.lines ∧ s'.blocks = s.blocks + 1 := by
  rcases ne_or_eq opts.cacheReplacementPolicy .fixedWindow with hmode | hmode
  · exact countsRef_D1Doref opts a size hmode m s u s' h
  · obtain ⟨_, s₁, h1, h⟩ := bind_eq_ok_iff.mp h
    cases h1
    simp only [hmode] at h
    obtain ⟨_, s₂, h2, h⟩ := bind_eq_ok_iff.mp h
    have hquiet : Quiet (shadowDrefs opts a size : SimM L PUnit) := frames_shadowDrefs opts a size
    obtain ⟨hl, hb⟩ := mk.injEq .. ▸ hquiet _ _ s₂ h2
    obtain ⟨_, s₃, h3, h⟩ := bind_eq_ok_iff.mp h
    cases h3
    have hlt : ¬ toULong opts.windowCounter ≤ s₂.blocks := by
      rw [hb]
      exact not_le.mpr (hopen hmode)
    rw [if_neg hlt] at h
    cases h
    rw [hl]
    exact ⟨bumped_refl m _, hb⟩

/-! ## Ordered counters -/

/-- The counts of one kind of access. -/
structure CacheCC.Ordered (cc : CacheCC) : Prop where
  mL_le : cc.mL ≤ cc.m1
  m1_le : cc.m1 ≤ cc.a

/-- The counters of a line: misses at LL, at the first level and accesses in order, and no more
mispredictions than branches. -/
structure LineCC.Ordered (cc : LineCC) : Prop where
  Ir : cc.Ir.Ordered
  Dr : cc.Dr.Ordered
  Dw : cc.Dw.Ordered
  Bc : cc.Bc.mp ≤ cc.Bc.b
  Bi : cc.Bi.mp ≤ cc.Bi.b

theorem LineCC.Ordered.get {cc : LineCC} (h : cc.Ordered) (k : AccessKind) :
    (cc.get k).Ordered := by
  cases k with
  | ir => exact h.Ir
  | dr => exact h.Dr
  | dw => exact h.Dw

theorem LineCC.Ordered.modify {cc : LineCC} (h : cc.Ordered) {k : AccessKind}
    {f : CacheCC → CacheCC} (hf : (f (cc.get k)).Ordered) : (cc.modify f k).Ordered := by
  cases k with
  | ir => exact { h with Ir := hf }
  | dr => exact { h with Dr := hf }
  | dw => exact { h with Dw := hf }

/-- A counted reference keeps a line ordered. -/
theorem ordered_addCC {lines : L → LineCC} (h : ∀ l, (lines l).Ordered) (m : CCRef L) {d1 dL : ℕ}
    (hL : dL ≤ d1) (h1 : d1 ≤ 1) (l : L) : (addCC m 1 d1 dL lines l).Ordered := by
  rcases eq_or_ne l m.line with rfl | hne
  · rw [addCC, update_self]
    obtain ⟨hmL, hm1⟩ := (h m.line).get m.kind
    exact (h m.line).modify ⟨add_le_add hmL hL, add_le_add hm1 h1⟩
  · rw [addCC, update_of_ne hne]
    exact h l

/-- All lines are ordered, `b` data references into the window. -/
structure InWindow (b : ℕ) (s : Sim L) : Prop where
  ordered : ∀ l, (s.lines l).Ordered
  blocks_eq : s.blocks = b

/-- A program that makes `k` data references and keeps the lines ordered, unless a fixed window ends
on the way. -/
def KeepsOrder (k : ℕ) (prog : SimM L PUnit) : Prop :=
  ∀ b, (opts.cacheReplacementPolicy = .fixedWindow → b + k < toULong opts.windowCounter) →
    Spec (InWindow b) prog (fun _ => InWindow (b + k)) fun _ => True

variable {opts}

omit [DecidableEq L] in
theorem KeepsOrder.bind {j : ℕ} {p q : SimM L PUnit} (hp : KeepsOrder opts j p)
    (hq : KeepsOrder opts k q) : KeepsOrder opts (j + k) (do p; q) := by
  intro b hb
  refine .bind (hp b fun hm => ?_) fun _ => ?_
  · have := hb hm
    omega
  · rw [← add_assoc]
    refine hq (b + j) fun hm => ?_
    rw [add_assoc]
    exact hb hm

/-- A counted reference followed by the count of its access. -/
theorem keepsOrder_countAccess {prog : SimM L PUnit}
    (h : ∀ (s s' : Sim L) (u : PUnit),
      (opts.cacheReplacementPolicy = .fixedWindow → s.blocks + k < toULong opts.windowCounter) →
      prog s = .ok (u, s') → Bumped m s.lines s'.lines ∧ s'.blocks = s.blocks + k) :
    KeepsOrder opts k (do prog; countAccess m) := by
  intro b hb s hs
  refine ⟨fun u s'' hrun => ?_, fun _ _ => trivial⟩
  obtain ⟨u, s', h1, h2⟩ := bind_eq_ok_iff.mp hrun
  cases h2
  obtain ⟨⟨d1, dL, hL, h1', hl⟩, hblk⟩ := h s s' u (by rw [hs.blocks_eq]; exact hb) h1
  refine ⟨fun l => ?_, by rw [← hs.blocks_eq]; exact hblk⟩
  dsimp only
  rw [hl, addCC_addCC, zero_add]
  exact ordered_addCC hs.ordered m hL h1' l

theorem keepsOrder_log1Ir (n : InstrInfo L) : KeepsOrder opts 0 (log1Ir n) := by
  intro b _ s hs
  refine ⟨fun u s' h => ?_, fun _ _ => trivial⟩
  cases h
  exact ⟨ordered_addCC hs.ordered _ (le_refl 0) zero_le, hs.blocks_eq⟩

theorem keepsOrder_log1IrGen (n : InstrInfo L) :
    KeepsOrder opts 0 (log1IrGen0DCacheAccess opts n) :=
  keepsOrder_countAccess fun s s' u _ h => countsRef_I1DorefGen opts _ _ _ s u s' h

theorem keepsOrder_log1IrNoX (n : InstrInfo L) :
    KeepsOrder opts 0 (log1IrNoX0DCacheAccess opts n) :=
  keepsOrder_countAccess fun s s' u _ h => countsRef_I1DorefNoX opts _ _ _ s u s' h

omit [DecidableEq L] in
theorem quiet_traceLine (tag : String) (l : L) : Quiet (traceLine opts tag l) :=
  .modify fun s => by dsimp only; split <;> rfl

theorem keepsOrder_logData (tag : String) (kind : AccessKind) (n : InstrInfo L) (a : Addr)
    (size : ℕ) : KeepsOrder opts 1 (logData opts tag kind n a size) := by
  have h : KeepsOrder opts 1 (do
      cachesimD1Doref opts ⟨n.parent, kind⟩ a (toUChar size)
      countAccess ⟨n.parent, kind⟩) :=
    keepsOrder_countAccess fun s s' u hopen h => D1Doref_counts_of_open opts hopen h
  intro b hb
  refine .bind (Q := fun _ => InWindow b) (fun s hs => ⟨fun u s' hrun => ?_, fun _ _ => trivial⟩)
    fun _ => h b hb
  obtain ⟨hl, hblk⟩ := mk.injEq .. ▸ quiet_traceLine tag n.parent s u s' hrun
  exact ⟨by rw [hl]; exact hs.ordered, hblk.trans hs.blocks_eq⟩

/-- An update that keeps its line ordered. -/
theorem inWindow_onLine {l₀ : L} {f : LineCC → LineCC} (hf : ∀ cc : LineCC, cc.Ordered →
    (f cc).Ordered) (b : ℕ) : Keeps (InWindow b) (onLine l₀ f) fun _ => True := by
  refine .modify fun s hs => ⟨fun l => ?_, hs.blocks_eq⟩
  dsimp only
  rcases eq_or_ne l l₀ with rfl | hne
  · rw [update_self]
    exact hf _ (hs.ordered l)
  · rw [update_of_ne hne]
    exact hs.ordered l

/-- A branch counts one branch and at most one misprediction. -/
theorem keepsOrder_logCondBranch (n : InstrInfo L) (taken : ℤ) :
    KeepsOrder opts 0 (logCondBranch opts n taken) := by
  intro b _ s hs
  refine ⟨fun u s' h => ?_, fun _ _ => trivial⟩
  unfold logCondBranch at h
  split at h
  · cases h
  · refine Spec.ok (inWindow_onLine (fun cc hcc => ?_) b) ?_ h
    · exact { hcc with Bc := add_le_add hcc.Bc (Bool.toNat_le _) }
    · exact ⟨hs.ordered, hs.blocks_eq⟩

theorem keepsOrder_logIndBranch (n : InstrInfo L) (dst : Addr) :
    KeepsOrder opts 0 (logIndBranch opts n dst) := by
  intro b _ s hs
  refine ⟨fun u s' h => ?_, fun _ _ => trivial⟩
  unfold logIndBranch at h
  refine Spec.ok (inWindow_onLine (fun cc hcc => ?_) b) ?_ h
  · exact { hcc with Bi := add_le_add hcc.Bi (Bool.toNat_le _) }
  · exact ⟨hs.ordered, hs.blocks_eq⟩

/-- **One call.** -/
theorem keepsOrder_exec (c : HelperCall L) : KeepsOrder opts c.dataRefs (c.exec opts) := by
  cases c with
  | log1Ir n => exact keepsOrder_log1Ir n
  | log2Ir n n2 => exact (keepsOrder_log1Ir n).bind (keepsOrder_log1Ir n2)
  | log3Ir n n2 n3 =>
    exact (keepsOrder_log1Ir n).bind ((keepsOrder_log1Ir n2).bind (keepsOrder_log1Ir n3))
  | log1IrGen0D n => exact keepsOrder_log1IrGen n
  | log1IrNoX0D n => exact keepsOrder_log1IrNoX n
  | log2IrNoX0D n n2 => exact (keepsOrder_log1IrNoX n).bind (keepsOrder_log1IrNoX n2)
  | log3IrNoX0D n n2 n3 =>
    exact (keepsOrder_log1IrNoX n).bind ((keepsOrder_log1IrNoX n2).bind (keepsOrder_log1IrNoX n3))
  | log1IrNoX1Dr n a size | log1IrNoX1Dw n a size =>
    exact (keepsOrder_log1IrNoX n).bind (keepsOrder_logData _ _ n a size)
  | log0Ir1Dr n a size | log0Ir1Dw n a size => exact keepsOrder_logData _ _ n a size
  | logCondBranch n taken => exact keepsOrder_logCondBranch n taken
  | logIndBranch n dst => exact keepsOrder_logIndBranch n dst
  | setPolicy policy => exact fun b _ => .modify fun s hs => ⟨hs.ordered, hs.blocks_eq⟩

/-- The data references of a run. -/
def dataRefs (calls : List (HelperCall L)) : ℕ := (calls.map HelperCall.dataRefs).sum

/-- **A whole run.** -/
theorem keepsOrder_runCalls : ∀ calls : List (HelperCall L),
    KeepsOrder opts (dataRefs calls) (runCalls opts calls)
  | [] => fun _ _ => Keeps.pure
  | c :: calls => (keepsOrder_exec c).bind (keepsOrder_runCalls calls)

/-- **The line counters stay ordered**, in every mode, on every run of fewer data references than a
fixed window holds. -/
theorem counters_ordered {I1c D1c LLc : CacheT} {loc : L → CodeLoc} {r : RandomStream}
    {s₀ s : Sim L} (hinit : cachesimInitcaches opts I1c D1c LLc loc r = .ok s₀)
    (calls : List (HelperCall L)) (hrun : runCalls opts calls s₀ = .ok (⟨⟩, s))
    (hwindow : opts.cacheReplacementPolicy = .fixedWindow →
      (dataRefs calls : ℤ) < opts.windowCounter) (l : L) :
    (s.lines l).Ir.mL ≤ (s.lines l).Ir.m1 ∧ (s.lines l).Ir.m1 ≤ (s.lines l).Ir.a
      ∧ (s.lines l).Dr.mL ≤ (s.lines l).Dr.m1 ∧ (s.lines l).Dr.m1 ≤ (s.lines l).Dr.a
      ∧ (s.lines l).Dw.mL ≤ (s.lines l).Dw.m1 ∧ (s.lines l).Dw.m1 ≤ (s.lines l).Dw.a
      ∧ (s.lines l).Bc.mp ≤ (s.lines l).Bc.b ∧ (s.lines l).Bi.mp ≤ (s.lines l).Bi.b := by
  obtain ⟨I1, D1, LL, D1s, -, -, -, -, hw, rfl⟩ := initcaches_ok hinit
  have hnew : ∀ loc : CodeLoc, (LineCC.new loc).Ordered := fun _ =>
    ⟨⟨le_refl 0, le_refl 0⟩, ⟨le_refl 0, le_refl 0⟩, ⟨le_refl 0, le_refl 0⟩, le_refl 0, le_refl 0⟩
  have hopen : opts.cacheReplacementPolicy = .fixedWindow →
      0 + dataRefs calls < toULong opts.windowCounter := by
    intro hmode
    have := hwindow hmode
    have := opts.windowCounter_lt
    rw [toULong_of_nonneg hw (by omega)]
    omega
  obtain ⟨Ir, Dr, Dw, Bc, Bi⟩ := (Spec.ok (keepsOrder_runCalls calls 0 hopen)
    ⟨fun l => hnew _, rfl⟩ hrun).ordered l
  exact ⟨Ir.mL_le, Ir.m1_le, Dr.mL_le, Dr.m1_le, Dw.mL_le, Dw.m1_le, Bc, Bi⟩

end

/-! ## The end of a fixed window -/

/-- A fixed window of two references, over direct-mapped caches of two lines. -/
def twoRefWindow : Options where
  cacheReplacementPolicy := .fixedWindow
  bipThrottleParameter := 0
  switchingThresholdParameter := 0
  windowCounter := 2
  windowCounter_lt := by decide
  overheadAllowed := false
  cloCFile := "x"
  canOpen := fun _ => false
  loZeroBits := 0

/-- The calls of two instructions on two source lines, each in a fresh block and reading one. -/
def twoLineCalls : List (HelperCall Bool) :=
  [.log1IrNoX1Dr ⟨4096, 4, false⟩ 64 4, .log1IrNoX1Dr ⟨8192, 4, true⟩ 128 4]

/-- The order at the first data reference of a window of two. -/
theorem counters_ordered_one : ∃ (s₀ s : Sim Bool),
    cachesimInitcaches twoRefWindow ⟨32, 1, 16⟩ ⟨32, 1, 16⟩ ⟨32, 1, 16⟩ (fun _ => ⟨"a", "f", 1⟩)
        lcgStream = .ok s₀
      ∧ runCalls twoRefWindow (twoLineCalls.take 1) s₀ = .ok (⟨⟩, s)
      ∧ (s.lines false).Ir.mL ≤ (s.lines false).Ir.m1 := by
  have hruns : reaches twoRefWindow ⟨32, 1, 16⟩ ⟨32, 1, 16⟩ ⟨32, 1, 16⟩ (fun _ => ⟨"a", "f", 1⟩)
      lcgStream (twoLineCalls.take 1) (fun _ _ => True) = true := by decide +kernel
  obtain ⟨s₀, s, hinit, hrun, -⟩ := exists_of_reaches twoRefWindow hruns
  exact ⟨s₀, s, hinit, hrun, (counters_ordered hinit _ hrun (fun _ => by decide) false).1⟩

/-- **The end of a window breaks the order**: the second line makes one read and is charged with the
misses of both, and its one instruction read with the shadow misses on top of its own. -/
theorem counters_not_ordered : ∃ (s₀ s : Sim Bool),
    cachesimInitcaches twoRefWindow ⟨32, 1, 16⟩ ⟨32, 1, 16⟩ ⟨32, 1, 16⟩ (fun _ => ⟨"a", "f", 1⟩)
        lcgStream = .ok s₀
      ∧ runCalls twoRefWindow twoLineCalls s₀ = .ok (⟨⟩, s)
      ∧ (s.lines true).Dr = ⟨1, 2, 2⟩ ∧ (s.lines true).Ir = ⟨1, 3, 3⟩ :=
  exists_of_reaches twoRefWindow (by decide +kernel)

end Valgrind.Cachegrind
