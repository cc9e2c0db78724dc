import Valgrind.Cachegrind.IndexSafety

/-!
# Cachegrind/Shadow — what the shadow policy named FIFO simulates

`dip_3` and `dip_3a` keep shadow caches next to the result caches, one set of three for each policy
of `names[]`.  A reference to a result cache is first made to the shadow caches of its level.  The
shadow policy `1` is named FIFO, but `dip_3` refers to it through `cachesim_setref_is_miss_lru` at
every level, and `dip_3a` does at I1 and LL.

Its caches are compared with a run of `cachesim_setref_is_miss_fifo` over the same references.  The
two functions agree on a miss and on a hit in way `0`, and on nothing else: the shadow caches follow
FIFO exactly as long as every reference is one of these (`fifo_shadow_iff`).
-/

open Hoare List Function

namespace Valgrind.Cachegrind

open Replacement (lru fifo)

variable {e e₀ e₁ : Engine} {f : MissFn} {n : ℕ} {l : Level} {set : List UWord} {assoc : ℕ}
  {tag : UWord}

/-! ## lru against fifo on one set -/

/-- A tag is moved to the front in vain iff it is there. -/
theorem cons_erase_eq_self_iff : tag :: set.erase tag = set ↔ set.head? = some tag := by
  cases set with
  | nil => simp
  | cons w ws =>
    rw [head?_cons, Option.some_inj]
    constructor
    · intro h
      exact (cons.inj h).1.symm
    · rintro rfl
      rw [erase_cons_head]

/-- A reference on which lru and fifo leave the same ways: a miss, or a hit in way `0`. -/
def FifoLike (set : List UWord) (tag : UWord) : Prop := tag ∉ set ∨ set.head? = some tag

/-- **lru and fifo agree on the ways iff the reference misses or hits way `0`…** -/
theorem lruWays_eq_fifoWays_iff (hlen : set.length = assoc) (hpos : 0 < assoc) (tag : UWord)
    (r r' : RandomStream) :
    (lruWays assoc set tag r).2.1 = (fifoWays assoc set tag r').2.1 ↔ FifoLike set tag := by
  rw [lruWays_eq hlen hpos, fifoWays_eq hlen hpos, FifoLike, ← cons_erase_eq_self_iff]
  by_cases hmem : tag ∈ set
  · rw [if_pos hmem, if_pos hmem]
    simp only [hmem, not_true, false_or]
  · rw [if_neg hmem, if_neg hmem]
    simp only [hmem, not_false_eq_true, true_or]

/-- …and always on the miss bit. -/
theorem lruWays_miss_eq_fifoWays (hlen : set.length = assoc) (hpos : 0 < assoc) (tag : UWord)
    (r r' : RandomStream) : (lruWays assoc set tag r).1 = (fifoWays assoc set tag r').1 := by
  rw [lruWays_eq hlen hpos, fifoWays_eq hlen hpos]
  split
  · rfl
  · rfl

/-! ## The shadow caches of policy `1` -/

variable {opts : Options} {bits : Bool × Bool × Bool}

/-- The caches of `policies[1]`. -/
def fifoShadows (e : Engine) : Level → CacheT2 := fun l => e.caches (.shadow 1 l)

/-- A call on a cache of the result or of another policy. -/
theorem frames_call (p : Replacement) {c : CacheRef} (hc : ∀ l, c ≠ .shadow 1 l) (n : ℕ)
    (tag : UWord) : Frames fifoShadows (p.call opts c n tag) := by
  intro e miss e' h
  obtain ⟨-, -, hcaches⟩ := Replacement.call_ok h
  funext l
  rw [fifoShadows, hcaches, update_of_ne (hc l).symm]
  rfl

theorem frames_storeD1 (w : ℤ) (i : Fin 4) (b : Bool) : Frames fifoShadows (storeD1 w i b) := by
  intro e _ e' h
  unfold storeD1 at h
  split at h
  · cases h
  · cases h
    rfl

theorem frames_dip3Select (b₁ b₂ b₃ : Bool) :
    Frames fifoShadows (modify (dip3Select b₁ b₂ b₃) : EngineM PUnit) := by
  refine .modify fun e => ?_
  unfold dip3Select
  cases b₁ <;> cases b₂ <;> cases b₃ <;> rfl

/-- The function through which the shadow caches of policy `1` are referred to. -/
def shadowPolicy (f : MissFn) (l : Level) : Replacement :=
  if f = .dip3a ∧ l = .d1 then .fifo else .lru

/-- The shadow references of a level contain one call on policy `1`, whose bit is `is_miss_fifo`. -/
theorem dip3Shadows_ok (h : dip3Shadows opts l n tag e = .ok (bits, e₁)) :
    ∃ e' e'', fifoShadows e' = fifoShadows e
      ∧ lru.call opts (.shadow 1 l) n tag e' = .ok (bits.2.1, e'')
      ∧ fifoShadows e₁ = fifoShadows e'' := by
  obtain ⟨b₁, e', h₁, h⟩ := bind_eq_ok_iff.mp h
  obtain ⟨b₂, e'', h₂, h⟩ := bind_eq_ok_iff.mp h
  obtain ⟨b₃, e₃, h₃, h⟩ := bind_eq_ok_iff.mp h
  cases h
  exact ⟨e', e'', frames_call _ (by simp) _ _ _ _ _ h₁, h₂,
    frames_call _ (by simp) _ _ _ _ _ h₃⟩

theorem dip3aShadows_ok (h : dip3aShadows opts n tag e = .ok (⟨⟩, e₁)) :
    ∃ e' e'' bit, fifoShadows e' = fifoShadows e
      ∧ fifo.call opts (.shadow 1 .d1) n tag e' = .ok (bit, e'')
      ∧ fifoShadows e₁ = fifoShadows e'' := by
  obtain ⟨b₁, s₁, h₁, h⟩ := bind_eq_ok_iff.mp h
  obtain ⟨_, e', h₂, h⟩ := bind_eq_ok_iff.mp h
  obtain ⟨b₃, e'', h₃, h⟩ := bind_eq_ok_iff.mp h
  have hbefore : fifoShadows e' = fifoShadows e :=
    (frames_storeD1 _ _ _ _ _ _ h₂).trans (frames_call _ (by simp) _ _ _ _ _ h₁)
  have hafter : Frames fifoShadows (do
      storeD1 opts.windowCounter 1 b₃
      let isMissBip ← Replacement.bip.call opts (.shadow 2 .d1) n tag
      storeD1 opts.windowCounter 2 isMissBip) :=
    .bind (frames_storeD1 _ _ _) fun _ =>
      .bind (frames_call _ (by simp) _ _) fun _ => frames_storeD1 _ _ _
  exact ⟨e', e'', b₃, hbefore, h₃, hafter _ _ _ h⟩

/-- **A reference refers once to the shadow caches of policy `1`.** -/
theorem exists_shadow_call (hf : f = .dip3 ∨ f = .dip3a) {miss : Bool}
    (h : f.call opts (.main l) n tag e = .ok (miss, e₁)) :
    ∃ e' e'' bit, fifoShadows e' = fifoShadows e
      ∧ (shadowPolicy f l).call opts (.shadow 1 l) n tag e' = .ok (bit, e'')
      ∧ fifoShadows e₁ = fifoShadows e'' := by
  have hlru : Frames fifoShadows (lru.call opts (.main l) n tag) :=
    frames_call _ (by simp) _ _
  have hbest : ∀ g : Engine → Replacement, Frames fifoShadows (do
      let e ← get
      (g e).call opts (.main .d1) n tag) := fun g =>
    .bind .get fun _ => frames_call _ (by simp) _ _
  rcases hf with rfl | rfl <;> rcases l with _ | _ | _
  case inr.d1 =>
    obtain ⟨_, e₂, h₁, h₂⟩ := bind_eq_ok_iff.mp h
    obtain ⟨e', e'', bit, hbefore, hcall, hafter⟩ := dip3aShadows_ok h₁
    exact ⟨e', e'', bit, hbefore, hcall, (hbest historyBest _ _ _ h₂).trans hafter⟩
  case inl.d1 =>
    obtain ⟨bits, e₂, h₁, h₂⟩ := bind_eq_ok_iff.mp h
    obtain ⟨e', e'', hbefore, hcall, hafter⟩ := dip3Shadows_ok h₁
    have hlast := (frames_dip3Select bits.1 bits.2.1 bits.2.2).bind fun _ => hbest dip3Best
    exact ⟨e', e'', bits.2.1, hbefore, hcall, (hlast _ _ _ h₂).trans hafter⟩
  all_goals
    obtain ⟨bits, e₂, h₁, h₂⟩ := bind_eq_ok_iff.mp h
    obtain ⟨e', e'', hbefore, hcall, hafter⟩ := dip3Shadows_ok h₁
    exact ⟨e', e'', bits.2.1, hbefore, hcall, (hlru _ _ _ h₂).trans hafter⟩

/-! ## Runs of references -/

/-- A reference to the result cache of a level. -/
structure LevelRef where
  level : Level
  setNo : ℕ
  tag : UWord
  deriving DecidableEq, Repr

variable (opts)

/-- References made through a function pointer. -/
def callRun (f : MissFn) (refs : List LevelRef) : EngineM PUnit :=
  refs.forM fun x => do
    let _ ← f.call opts (.main x.level) x.setNo x.tag
    return ⟨⟩

/-- The same references made by `cachesim_setref_is_miss_fifo` to the shadow caches of policy `1`.
-/
def fifoRun (refs : List LevelRef) : EngineM PUnit :=
  refs.forM fun x => do
    let _ ← fifo.call opts (.shadow 1 x.level) x.setNo x.tag
    return ⟨⟩

/-- After the references `past` the shadow caches of policy `1` are those of the FIFO run, and at
the next D1 reference `is_miss_fifo` of `dip_3` is the miss bit of FIFO. -/
def SimulatesFifo (f : MissFn) (e₀ : Engine) (past : List LevelRef) : Prop :=
  ∀ e, callRun opts f past e₀ = .ok (⟨⟩, e) →
    ∃ e', fifoRun opts past e₀ = .ok (⟨⟩, e')
      ∧ (∀ l, e.caches (.shadow 1 l) = e'.caches (.shadow 1 l))
      ∧ ∀ n tag bits e₁, dip3Shadows opts .d1 n tag e = .ok (bits, e₁) →
          ∃ e₁', fifo.call opts (.shadow 1 .d1) n tag e' = .ok (bits.2.1, e₁')

/-- A reference at a level where the shadow caches of policy `1` are not referred to by fifo misses
in the FIFO run of the references before it, or hits way `0`. -/
def Harmless (f : MissFn) (e₀ : Engine) (past : List LevelRef) (x : LevelRef) : Prop :=
  ¬ (f = .dip3a ∧ x.level = .d1) → ∀ e', fifoRun opts past e₀ = .ok (⟨⟩, e') →
    FifoLike ((e'.caches (.shadow 1 x.level)).row x.setNo) x.tag

variable {opts} {past : List LevelRef} {x : LevelRef}

theorem callRun_concat :
    callRun opts f (past ++ [x]) e₀ = .ok (⟨⟩, e₁)
      ↔ ∃ e, callRun opts f past e₀ = .ok (⟨⟩, e)
          ∧ ∃ miss, f.call opts (.main x.level) x.setNo x.tag e = .ok (miss, e₁) := by
  simp only [callRun, forM_concat_eq_ok_iff, discard_eq_ok_iff]

theorem fifoRun_concat :
    fifoRun opts (past ++ [x]) e₀ = .ok (⟨⟩, e₁)
      ↔ ∃ e, fifoRun opts past e₀ = .ok (⟨⟩, e)
          ∧ ∃ miss, fifo.call opts (.shadow 1 x.level) x.setNo x.tag e
              = .ok (miss, e₁) := by
  simp only [fifoRun, forM_concat_eq_ok_iff, discard_eq_ok_iff]

/-- The ways left by the function in use against those left by fifo. -/
theorem shadowPolicy_ways_iff (throttle : ℚ) (hlen : set.length = assoc) (hpos : 0 < assoc)
    (tag : UWord) (r r' : RandomStream) : ((shadowPolicy f l).waysFn throttle assoc set tag r).2.1
        = (fifo.waysFn throttle assoc set tag r').2.1
      ↔ (¬ (f = .dip3a ∧ l = .d1) → FifoLike set tag) := by
  unfold shadowPolicy
  split
  · next h =>
    have hsame : (fifoWays assoc set tag r).2.1 = (fifoWays assoc set tag r').2.1 := by
      rw [fifoWays_eq hlen hpos, fifoWays_eq hlen hpos]
      split
      · rfl
      · rfl
    exact iff_of_true hsame fun hnot => absurd h hnot
  · next h =>
    rw [← lruWays_eq_fifoWays_iff hlen hpos tag r r']
    exact ⟨fun heq _ => heq, fun himp => himp h⟩

/-- **One reference**: from equal shadow caches the FIFO run takes the reference too, and the caches
stay equal iff the reference is harmless. -/
theorem fifoShadows_step (hf : f = .dip3 ∨ f = .dip3a) {e' : Engine} {miss : Bool}
    (heq : fifoShadows e = fifoShadows e') (h : f.call opts (.main l) n tag e = .ok (miss, e₁)) :
    ∃ bit e₁', fifo.call opts (.shadow 1 l) n tag e' = .ok (bit, e₁')
      ∧ (fifoShadows e₁ = fifoShadows e₁'
        ↔ (¬ (f = .dip3a ∧ l = .d1) → FifoLike ((e'.caches (.shadow 1 l)).row n) tag)) := by
  obtain ⟨e₂, e₃, bit, hbefore, hcall, hafter⟩ := exists_shadow_call hf h
  obtain ⟨hlt, -, hcaches⟩ := Replacement.call_ok hcall
  have hcache : e₂.caches (.shadow 1 l) = e'.caches (.shadow 1 l) :=
    congrFun (hbefore.trans heq) l
  rw [hcache] at hlt hcaches
  refine ⟨_, _, fifo.call_of_lt hlt tag, ?_⟩
  obtain ⟨hlen, hpos⟩ := (e'.caches (.shadow 1 l)).row_of_lt hlt
  have hlen₁ := (refSpec_waysFn opts.bipThrottleParameter (shadowPolicy f l) hlen hpos tag
    e₂.rand).length_eq (by omega)
  have hlen₂ := (refSpec_waysFn opts.bipThrottleParameter .fifo hlen hpos tag
    e'.rand).length_eq (by omega)
  rw [← shadowPolicy_ways_iff opts.bipThrottleParameter hlen hpos tag e₂.rand e'.rand,
    ← CacheT2.writeRow_inj (by omega) hlt.1 (hlen₁.trans hlen) (hlen₂.trans hlen), hafter]
  constructor
  · intro hall
    have hl := congrFun hall l
    simp only [fifoShadows, hcaches, update_self] at hl
    exact hl
  · intro hrow
    funext l'
    by_cases hl : l' = l
    · subst hl
      simp only [fifoShadows, hcaches, update_self]
      exact hrow
    · have hne : CacheRef.shadow 1 l' ≠ .shadow 1 l := by simpa using hl
      simp only [fifoShadows, hcaches, update_of_ne hne]
      exact congrFun (hbefore.trans heq) l'

/-- `is_miss_fifo` is the miss bit of FIFO on equal caches. -/
theorem isMissFifo_eq {e' : Engine}
    (heq : fifoShadows e = fifoShadows e') (h : dip3Shadows opts .d1 n tag e = .ok (bits, e₁)) :
    ∃ e₁', fifo.call opts (.shadow 1 .d1) n tag e' = .ok (bits.2.1, e₁') := by
  obtain ⟨e₂, e₃, hbefore, hcall, -⟩ := dip3Shadows_ok h
  obtain ⟨hlt, hbit, -⟩ := Replacement.call_ok hcall
  have hcache : e₂.caches (.shadow 1 .d1) = e'.caches (.shadow 1 .d1) :=
    congrFun (hbefore.trans heq) .d1
  rw [hcache] at hlt hbit
  obtain ⟨hlen, hpos⟩ := (e'.caches (.shadow 1 .d1)).row_of_lt hlt
  rw [hbit.trans (lruWays_miss_eq_fifoWays hlen hpos tag e₂.rand e'.rand)]
  exact ⟨_, fifo.call_of_lt hlt tag⟩

/-- The FIFO run keeps pace with harmless references. -/
theorem exists_fifoRun (hf : f = .dip3 ∨ f = .dip3a) :
    ∀ {past : List LevelRef} {e : Engine}, callRun opts f past e₀ = .ok (⟨⟩, e) →
      (∀ before x after, past = before ++ x :: after → Harmless opts f e₀ before x) →
      ∃ e', fifoRun opts past e₀ = .ok (⟨⟩, e') ∧ fifoShadows e = fifoShadows e' := by
  intro past
  induction past using reverseRecOn with
  | nil =>
    intro e hrun _
    cases hrun
    exact ⟨e₀, rfl, rfl⟩
  | append_singleton past x ih =>
    intro e₁ hrun hharm
    obtain ⟨e, hpast, miss, hcall⟩ := callRun_concat.mp hrun
    obtain ⟨e', hfifo, heq⟩ := ih hpast fun before y after h => by
      refine hharm before y (after ++ [x]) ?_
      rw [h, append_assoc, cons_append]
    obtain ⟨bit, e₁', hnext, hiff⟩ := fifoShadows_step hf heq hcall
    refine ⟨e₁', fifoRun_concat.mpr ⟨e', hfifo, bit, hnext⟩, hiff.mpr fun hlevel => ?_⟩
    exact hharm past x [] rfl hlevel e' hfifo

/-- **The shadow policy named FIFO simulates FIFO iff every reference is harmless**: over all
sequences of references, from any state. -/
theorem fifo_shadow_iff {f : MissFn} (hf : f = .dip3 ∨ f = .dip3a) {e₀ e : Engine}
    {refs : List LevelRef} (hrun : callRun opts f refs e₀ = .ok (⟨⟩, e)) :
    (∀ past rest, refs = past ++ rest → SimulatesFifo opts f e₀ past)
      ↔ ∀ past x rest, refs = past ++ x :: rest → Harmless opts f e₀ past x := by
  constructor
  · intro hsim past x rest hrefs hlevel e' hfifo
    have hrefs' : refs = (past ++ [x]) ++ rest := by simpa using hrefs
    obtain ⟨e₁, hrun₁⟩ : ∃ e₁, callRun opts f (past ++ [x]) e₀ = .ok (⟨⟩, e₁) := by
      rw [hrefs', callRun, forM_append_eq_ok_iff] at hrun
      obtain ⟨e₁, h, -⟩ := hrun
      exact ⟨e₁, h⟩
    obtain ⟨e₂, hpast, miss, hcall⟩ := callRun_concat.mp hrun₁
    obtain ⟨e₃, hfifo₃, heq, -⟩ := hsim past (x :: rest) hrefs e₂ hpast
    obtain ⟨e₄, hfifo₄, heq₁, -⟩ := hsim (past ++ [x]) rest hrefs' e₁ hrun₁
    cases hfifo.symm.trans hfifo₃
    obtain ⟨bit, e₅, hnext, hiff⟩ := fifoShadows_step hf (funext heq) hcall
    cases hfifo₄.symm.trans (fifoRun_concat.mpr ⟨e', hfifo, bit, hnext⟩)
    exact hiff.mp (funext heq₁) hlevel
  · intro hharm past rest hrefs e₁ hpast
    obtain ⟨e', hfifo, heq⟩ := exists_fifoRun hf hpast fun before x after h =>
      hharm before x (after ++ rest) (by rw [hrefs, h, append_assoc, cons_append])
    exact ⟨e', hfifo, fun l => congrFun heq l, fun n tag bits e₂ h => isMissFifo_eq heq h⟩

/-- A first reference is harmless, and the shadow cache follows FIFO through it. -/
theorem fifo_shadow_first : ∃ (s₀ : Sim Unit) (e : Engine),
    cachesimInitcaches dip3Options ⟨32, 1, 16⟩ ⟨1024, 2, 16⟩ ⟨64, 2, 16⟩ (fun _ => ⟨"a", "f", 1⟩)
        lcgStream = .ok s₀
      ∧ callRun dip3Options .dip3 [⟨.d1, 0, 32⟩] s₀.engine = .ok (⟨⟩, e)
      ∧ SimulatesFifo dip3Options .dip3 s₀.engine [⟨.d1, 0, 32⟩] := by
  have hruns : reaches dip3Options ⟨32, 1, 16⟩ ⟨1024, 2, 16⟩ ⟨64, 2, 16⟩
      (fun _ : Unit => ⟨"a", "f", 1⟩) lcgStream [] (fun s _ =>
        (s.engine.caches (.shadow 1 .d1)).row 0 = [0, 0]
          ∧ (callRun dip3Options .dip3 [⟨.d1, 0, 32⟩] s.engine).isOk) = true := by
    decide +kernel
  obtain ⟨s₀, s, hinit, -, hrow, hok⟩ := exists_of_reaches dip3Options hruns
  cases he : callRun dip3Options .dip3 [⟨.d1, 0, 32⟩] s₀.engine with
  | error _ =>
    rw [he] at hok
    cases hok
  | ok p =>
    refine ⟨s₀, p.2, hinit, he, (fifo_shadow_iff (.inl rfl) he).mpr ?_ _ [] rfl⟩
    intro past x rest hrefs _ e' hfifo
    obtain ⟨rfl, hx⟩ | ⟨-, hx⟩ := singleton_eq_append_iff.mp hrefs <;> cases hx
    cases hfifo
    refine .inl ?_
    rw [hrow]
    decide

/-- **Two blocks and the first again**: after three reads of two blocks of one set, `dip_3` has the
first block in way `0` of the shadow cache, where FIFO has the second. -/
theorem fifo_shadow_is_lru : ∃ (s₀ s : Sim Unit) (e' : Engine),
    cachesimInitcaches dip3Options ⟨32, 1, 16⟩ ⟨1024, 2, 16⟩ ⟨64, 2, 16⟩ (fun _ => ⟨"a", "f", 1⟩)
        lcgStream = .ok s₀
      ∧ runCalls dip3Options [.log0Ir1Dr ⟨4096, 4, ()⟩ 512 1, .log0Ir1Dr ⟨4096, 4, ()⟩ 1024 1,
          .log0Ir1Dr ⟨4096, 4, ()⟩ 512 1] s₀ = .ok (⟨⟩, s)
      ∧ (s.engine.caches (.shadow 1 .d1)).row 0 = [32, 64]
      ∧ fifoRun dip3Options [⟨.d1, 0, 32⟩, ⟨.d1, 0, 64⟩, ⟨.d1, 0, 32⟩] s₀.engine = .ok (⟨⟩, e')
      ∧ (e'.caches (.shadow 1 .d1)).row 0 = [64, 32] := by
  have hruns : reaches dip3Options ⟨32, 1, 16⟩ ⟨1024, 2, 16⟩ ⟨64, 2, 16⟩
      (fun _ : Unit => ⟨"a", "f", 1⟩) lcgStream
      [.log0Ir1Dr ⟨4096, 4, ()⟩ 512 1, .log0Ir1Dr ⟨4096, 4, ()⟩ 1024 1,
        .log0Ir1Dr ⟨4096, 4, ()⟩ 512 1]
      (fun s₀ s => (s.engine.caches (.shadow 1 .d1)).row 0 = [32, 64]
        ∧ (match fifoRun dip3Options [⟨.d1, 0, 32⟩, ⟨.d1, 0, 64⟩, ⟨.d1, 0, 32⟩] s₀.engine with
          | .error _ => false
          | .ok (_, e) => decide ((e.caches (.shadow 1 .d1)).row 0 = [64, 32])) = true) = true := by
    decide +kernel
  obtain ⟨s₀, s, hinit, hrun, hrow, hfifo⟩ := exists_of_reaches dip3Options hruns
  split at hfifo
  · cases hfifo
  · next e' he => exact ⟨s₀, s, e', hinit, hrun, hrow, he, of_decide_eq_true hfifo⟩

end Valgrind.Cachegrind
