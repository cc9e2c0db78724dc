import Valgrind.Cachegrind.IndexSafety

/-!
# Cachegrind/FastPath — `cachesim_I1_doref_NoX` against `cachesim_I1_doref_Gen`

The fast path is taken for an instruction within one line when I1 and LL have lines of the same
size.  The two paths make the same references, with one difference: in the approaches that run all
shadow policies the generic path dispatches through the global function pointer, and leaves it on
the last policy, random, for the reference to the result caches.  The fast path calls the functions
of the policies directly, and refers to the result caches through whatever the pointer was left on.

So the generic path is the fast path with the pointer on random (`I1DorefGen_eq`), and the two agree
if the pointer is there already, or if it makes no difference to the tags which function is used.
-/

open Hoare List Function Nat

namespace Valgrind.Cachegrind

open HasShape (geom_eq)

variable {L α : Type} {opts : Options} {sh : Shape} {s t : Sim L} {a : Addr} {size : ℕ} {l : Level}
  {p : Replacement} {b : UWord} {c : CacheRef} {e : Engine} {C : CacheT2} {m : EngineM α}

/-! ## The pointer -/

/-- The state with `cachesim_setref_is_miss` moved to `f`. -/
def Sim.withPointer (f : MissFn) (s : Sim L) : Sim L := { s with setrefIsMiss := f }

theorem setSetref_run (f : MissFn) (s : Sim L) :
    setSetref f s = .ok (⟨⟩, s.withPointer f) := rfl

theorem onEngine_congr {n : EngineM α} (h : m s.engine = n s.engine) :
    onEngine m s = onEngine n s := by
  unfold onEngine
  rw [h]

theorem commutes_onEngine (f : MissFn) (m : EngineM α) :
    Commutes (Sim.withPointer f) (onEngine m : SimM L α) := by
  intro s
  unfold onEngine
  rw [show (Sim.withPointer f s).engine = s.engine from rfl]
  cases m s.engine with
  | error e => rfl
  | ok p => rfl

theorem commutes_onPolicy (f : MissFn) (i : Fin 4) (u : Policy → Policy) :
    Commutes (Sim.withPointer f) (onPolicy i u : SimM L PUnit) := .modify fun _ => rfl

/-- **The shadow references of the fast path do not look at the pointer.** -/
theorem commutes_shadowIrNoX (f : MissFn) (i1Set : ℕ) (block : UWord) (i : Fin 4) :
    Commutes (Sim.withPointer f) (shadowIrNoX opts i1Set block i : SimM L PUnit) :=
  .get_bind (fun _ => rfl) fun _ => .bind (commutes_onEngine _ _) fun _ =>
    .ite (.get_bind (fun _ => rfl) fun _ =>
      .bind (commutes_onPolicy _ _ _) fun _ => .bind (commutes_onEngine _ _) fun _ =>
        .ite (commutes_onPolicy _ _ _) (.pure _)) (.pure _)

/-! ## One iteration -/

/-- The access of the fast path: within one line of I1, and LL has the same line size. -/
structure OneLine (sh : Shape) (a : Addr) (size : ℕ) : Prop where
  lineSizeBits : (sh.geom (.main .i1)).lineSizeBits = (sh.geom (.main .ll)).lineSizeBits
  block : (sh.geom (.main .i1)).block a = (sh.geom (.main .i1)).lastBlock a size

theorem oneLine_of_isIrNoX (hs : SimShape opts sh s) (h : cachesimIsIrNoX s a size = true) :
    OneLine sh a size := by
  unfold cachesimIsIrNoX at h
  dsimp only at h
  rw [geom_eq hs.1, geom_eq hs.1] at h
  split at h
  · cases h
  · next hbits => exact ⟨not_not.mp hbits, of_decide_eq_true h⟩

/-- The shadow I1 and LL caches are built like the result caches. -/
structure Shape.Mirrored (sh : Shape) : Prop extends sh.Regular where
  mirror : ∀ i l, l ≠ .d1 → sh.geom (.shadow i l) = sh.geom (.main l)

/-- The block both paths refer to. -/
abbrev irBlock (sh : Shape) (a : Addr) : UWord := (sh.geom (.main .i1)).block a

/-- The set number both paths compute at a level. -/
def irSet (sh : Shape) (l : Level) (a : Addr) : ℕ :=
  (sh.geom (.main l)).setOf ((sh.geom (.main .i1)).block a)

/-- An iteration of the fast path, in the terms of a shape. -/
def irShadow (opts : Options) (sh : Shape) (a : Addr) (i : Fin 4) : SimM L PUnit :=
  shadowIrNoX opts (irSet sh .i1 a) ((sh.geom (.main .i1)).block a) i

theorem irSet_lt (hsh : sh.Mirrored) (hl : l ≠ .d1) (a : Addr) (i : Fin 4) (hsafe : sh.Safe) :
    (irSet sh l a : ℤ) < (sh.geom (.shadow i l)).sets := by
  rw [hsh.mirror i l hl]
  exact Geometry.setOf_lt (hsafe.one_le _) (hsafe.mask _) _

theorem simKeeps_irShadow (hsh : sh.Mirrored) (a : Addr) (i : Fin 4) :
    SimKeeps opts sh (irShadow opts sh a i : SimM L PUnit) :=
  simKeeps_shadowIrNoX hsh.toRegular
    (fun hsafe => Geometry.setOf_lt (hsafe.one_le _) (hsafe.mask _) _) _ i

/-- A reference within one line is one call of the set function. -/
theorem refIsMiss_of_oneLine (ht : HasShape sh t.engine) (h : OneLine sh a size) (hl : l ≠ .d1)
    (hc : sh.geom c = sh.geom (.main l)) : refIsMiss opts c a size t
      = onEngine (t.setrefIsMiss.call opts c (irSet sh l a) (irBlock sh a)) t := by
  have hbits : (sh.geom c).lineSizeBits = (sh.geom (.main .i1)).lineSizeBits := by
    rw [hc]
    cases l with
    | i1 => rfl
    | d1 => exact absurd rfl hl
    | ll => exact h.lineSizeBits.symm
  have hblock : ∀ b, (sh.geom c).block b = (sh.geom (.main .i1)).block b := by
    intro b
    rw [Geometry.block, Geometry.block, hbits]
  have hone : (t.engine.caches c).block a = (t.engine.caches c).lastBlock a size := by
    rw [ht.geom_eq, hblock, Geometry.lastBlock, hblock]
    exact h.block
  rw [refIsMiss, bind_of_ok (get_run t)]
  refine onEngine_congr ((cachesimRefIsMiss_of_eq hone).trans ?_)
  rw [ht.geom_eq, hblock, irSet, ← hc]

/-- **An iteration of the generic path is one of the fast path**, with the pointer moved first. -/
theorem shadowIr_eq (hsh : sh.Mirrored) (ht : SimShape opts sh t) (h : OneLine sh a size)
    (i : Fin 4) : shadowIr opts a size i t
      = irShadow opts sh a i (t.withPointer (.basic (missFunctions i))) := by
  have hfunc := ht.isMissFunc_eq hsh.toRegular i
  have hpoints : PointsTo opts sh (.basic (missFunctions i))
      (t.withPointer (.basic (missFunctions i))) := ⟨⟨ht.1, fun _ => ⟨_, rfl⟩⟩, rfl⟩
  rw [shadowIr, bind_of_ok (get_run t), hfunc, bind_of_ok (setSetref_run _ _), irShadow, shadowIrNoX,
    bind_of_ok (get_run _)]
  generalize t.withPointer (.basic (missFunctions i)) = t₁ at hpoints
  rw [hpoints.shape.isMissFunc_eq hsh.toRegular i]
  have href : ∀ {l : Level} (_ : l ≠ .d1) {u : Sim L},
      PointsTo opts sh (.basic (missFunctions i)) u → refIsMiss opts (.shadow i l) a size u
        = onEngine ((missFunctions i).call opts (.shadow i l) (irSet sh l a) (irBlock sh a)) u := by
    intro l hl u hu
    rw [refIsMiss_of_oneLine hu.shape.1 h hl (hsh.mirror i l hl), hu.pointer]
    rfl
  refine bind_run_congr (href (by decide) hpoints) fun miss t₂ hrun => ?_
  rw [href (by decide) hpoints] at hrun
  have hpoints₂ := (pointsTo_onEngine (keepsShape_call _ (irSet_lt hsh (by decide) a i) _).escapes).ok
    hpoints hrun
  cases miss with
  | false => rfl
  | true =>
    rw [if_pos rfl, if_pos rfl, bind_of_ok (get_run t₂), hpoints₂.shape.isMissFunc_eq hsh.toRegular i,
      geom_eq hpoints₂.shape.1]
    refine bind_run_congr rfl fun _ t₃ hpol => ?_
    have hpoints₃ := (pointsTo_onPolicy i (g := fun p => { p with missesI1 := p.missesI1 + 1 })
      fun _ => rfl).ok hpoints₂ hpol
    exact bind_run_congr (href (by decide) hpoints₃) fun _ _ _ => rfl

/-- **The shadow loop**: the generic path leaves the pointer on the last policy. -/
theorem forM_shadowIr_eq (hsh : sh.Mirrored) (h : OneLine sh a size) (i : Fin 4) (l : List (Fin 4)) :
    ∀ {t : Sim L}, SimShape opts sh t →
    (l ++ [i]).forM (shadowIr opts a size) t
      = (l ++ [i]).forM (irShadow opts sh a) (t.withPointer (.basic (missFunctions i))) := by
  induction l with
  | nil =>
    intro t ht
    exact bind_run_congr (shadowIr_eq hsh ht h i) fun _ _ _ => rfl
  | cons j l ih =>
    intro t ht
    have hcomm : ∀ f, Commutes (Sim.withPointer f) (irShadow opts sh a j : SimM L PUnit) :=
      fun f => commutes_shadowIrNoX f _ _ j
    have hiter := shadowIr_eq hsh ht h j
    cases hj : irShadow opts sh a j t with
    | error e =>
      rw [(hcomm _).error hj] at hiter
      exact (bind_of_error hiter).trans (bind_of_error ((hcomm _).error hj)).symm
    | ok p =>
      rw [(hcomm _).ok hj] at hiter
      have hp : SimShape opts sh (p.2.withPointer (.basic (missFunctions j))) :=
        ⟨((simKeeps_irShadow hsh a j).ok ht hj).1, fun _ => ⟨_, rfl⟩⟩
      calc (j :: l ++ [i]).forM (shadowIr opts a size) t
          = (l ++ [i]).forM (shadowIr opts a size)
              (p.2.withPointer (.basic (missFunctions j))) := bind_of_ok hiter
        _ = (l ++ [i]).forM (irShadow opts sh a) (p.2.withPointer (.basic (missFunctions i))) :=
            ih hp
        _ = _ := (bind_of_ok (f := fun _ => (l ++ [i]).forM (irShadow opts sh a))
            ((hcomm _).ok hj)).symm

/-! ## The whole read -/

section Read

variable [DecidableEq L] {n assoc : ℕ} {set : List UWord} {throttle : ℚ}

/-- The reference to the result caches is the same on both paths. -/
theorem resultRef_eq (ht : SimShape opts sh t) (h : OneLine sh a size) (m : CCRef L) :
    resultRef opts .i1 m a size t
      = resultRefNoX opts (irSet sh .i1 a) (irBlock sh a) m t := by
  rw [resultRef, resultRefNoX, bind_of_ok (get_run t)]
  refine bind_run_congr (refIsMiss_of_oneLine ht.1 h (by decide) rfl) fun miss t₂ hrun => ?_
  have ht₂ := (simKeeps_refIsMiss .i1 a size).ok ht hrun
  cases miss with
  | false => rfl
  | true =>
    rw [if_pos rfl, if_pos rfl, bind_of_ok (get_run t₂), geom_eq ht₂.1]
    refine bind_run_congr rfl fun _ t₃ hadd => ?_
    have ht₃ : SimShape opts sh t₃ := by
      cases hadd
      exact ht₂
    have hpointer : t₃.setrefIsMiss = t₂.setrefIsMiss := by
      cases hadd
      rfl
    rw [← hpointer]
    exact bind_run_congr (refIsMiss_of_oneLine ht₃.1 h (by decide) rfl) fun _ _ _ => rfl

/-- The fast path, in the terms of a shape. -/
theorem I1DorefNoX_run (hs : SimShape opts sh s) (m : CCRef L) (a : Addr) (size : ℕ) :
    cachesimI1DorefNoX opts m a size s
      = (do
          (if opts.cacheReplacementPolicy.runsShadows then
              policyIndices.forM (irShadow opts sh a)
            else pure ⟨⟩)
          resultRefNoX opts (irSet sh .i1 a) (irBlock sh a) m :
            SimM L PUnit) { s with missesI := some m } := by
  rw [cachesimI1DorefNoX, bind_of_ok (modify_run _ s), bind_of_ok (get_run _)]
  dsimp only
  rw [geom_eq hs.1]
  rfl

/-- **The generic path is the fast path**, with the pointer on random if the shadow loop runs. -/
theorem I1DorefGen_eq (hsh : sh.Mirrored) (hs : SimShape opts sh s) (h : OneLine sh a size)
    (m : CCRef L) : cachesimI1DorefGen opts m a size s
      = cachesimI1DorefNoX opts m a size (if opts.cacheReplacementPolicy.runsShadows = true
          then s.withPointer (.basic .random) else s) := by
  have hs₁ : SimShape opts sh { s with missesI := some m } := hs
  rw [cachesimI1DorefGen, bind_of_ok (modify_run _ s)]
  split
  · next hruns =>
    have hs' : SimShape opts sh (s.withPointer (.basic .random)) := ⟨hs.1, fun _ => ⟨_, rfl⟩⟩
    rw [I1DorefNoX_run hs', if_pos hruns]
    refine bind_run_congr (forM_shadowIr_eq hsh h 3 [0, 1, 2] hs₁) fun _ t hloop => ?_
    have ht := (Spec.forM fun i _ => simKeeps_shadowIr hsh.toRegular a size i).ok hs₁ hloop
    exact resultRef_eq ht h m
  · next hruns =>
    rw [I1DorefNoX_run hs, if_neg hruns]
    exact bind_run_congr rfl fun _ t hnone => resultRef_eq (by cases hnone; exact hs) h m

/-! ## Agreement -/

/-- What an instruction read may update. -/
@[ext] structure Effects (L : Type) where
  tags : CacheRef → List UWord
  missesI1 : Fin 4 → ℕ
  missesIL : Fin 4 → ℕ
  lines : L → LineCC

/-- The tags of all caches, the instruction misses of all policies and the counters. -/
def effects (s : Sim L) : Effects L where
  tags c := (s.engine.caches c).tags
  missesI1 i := (s.engine.policies i).missesI1
  missesIL i := (s.engine.policies i).missesIL
  lines := s.lines

/-- Two runs end in the same fault, or with the same effects. -/
def Agree (x y : Except Fault (PUnit × Sim L)) : Prop :=
  x.map (fun p => effects p.2) = y.map fun p => effects p.2

/-- The engine with another random stream. -/
def Engine.withRand (r : RandomStream) (e : Engine) : Engine := { e with rand := r }

/-- The state with another random stream. -/
def Sim.withRand (r : RandomStream) (s : Sim L) : Sim L :=
  { s with engine := s.engine.withRand r }

omit [DecidableEq L] in
theorem onEngine_ok {a : α} (h : m s.engine = .ok (a, e)) :
    onEngine m s = .ok (a, { s with engine := e }) := by
  unfold onEngine
  rw [h]

omit [DecidableEq L] in
theorem onEngine_error {fault : Fault} (h : m s.engine = .error fault) :
    onEngine m s = .error fault := by
  unfold onEngine
  rw [h]

/-! ## One-way caches -/

/-- All functions do the same to a set of one way. -/
theorem waysFn_oneWay (throttle : ℚ) (p : Replacement) (w b : UWord) (r : RandomStream) :
    (p.waysFn throttle 1 [w] b r).1 = decide (b ≠ w)
      ∧ (p.waysFn throttle 1 [w] b r).2.1 = [b] := by
  have hlen : [w].length = 1 := rfl
  have hspec := refSpec_waysFn throttle p hlen one_pos b r
  generalize (p.waysFn throttle 1 [w] b r).1 = miss at hspec
  generalize (p.waysFn throttle 1 [w] b r).2.1 = set at hspec
  cases hspec with
  | promoted h | stayed h =>
    obtain rfl := mem_singleton.mp h
    simp
  | installed h hi =>
    have hne : b ≠ w := fun heq => h (mem_singleton.mpr heq)
    cases hi with
    | front => simp [hne]
    | atWay i hi =>
      obtain rfl : i = 0 := by simpa using hi
      simp [hne]

/-- A call keeps the geometry of every cache. -/
theorem call_geometry {e₁ : Engine} {miss : Bool} (h : p.call opts c n b e = .ok (miss, e₁))
    (d : CacheRef) : (e₁.caches d).toGeometry = (e.caches d).toGeometry := by
  obtain ⟨-, -, hcaches⟩ := Replacement.call_ok h
  rw [hcaches]
  by_cases hd : d = c
  · subst hd
    rw [update_self]
    rfl
  · rw [update_of_ne hd]

/-- **A call on a one-way cache**: the function and the random stream show in the stream only. -/
theorem call_oneWay (opts : Options) (p q : Replacement) (hassoc : (e.caches c).assoc = 1) (n : ℕ)
    (b : UWord) (r : RandomStream) :
    (∃ fault, p.call opts c n b e = .error fault ∧ q.call opts c n b (e.withRand r) = .error fault)
      ∨ ∃ miss e₁ r₁, p.call opts c n b e = .ok (miss, e₁)
        ∧ q.call opts c n b (e.withRand r) = .ok (miss, e₁.withRand r₁) := by
  rcases em ((n : ℤ) < (e.caches c).sets ∧ 1 ≤ (e.caches c).assoc) with hlt | hge
  · have hways : (e.caches c).ways = 1 := by
      rw [CacheT2.ways, hassoc]
      rfl
    obtain ⟨w, hw⟩ := length_eq_one_iff.mp (((e.caches c).row_of_lt hlt).1.trans hways)
    obtain ⟨hp₁, hp₂⟩ := waysFn_oneWay opts.bipThrottleParameter p w b e.rand
    obtain ⟨hq₁, hq₂⟩ := waysFn_oneWay opts.bipThrottleParameter q w b r
    refine .inr ⟨_, _, (q.waysFn opts.bipThrottleParameter 1 [w] b r).2.2, p.call_of_lt hlt b, ?_⟩
    rw [q.call_of_lt (e := e.withRand r) hlt]
    simp only [Engine.withRand, hways, hw, hp₁, hp₂, hq₁, hq₂]
  · exact .inl ⟨_, p.call_of_not_lt hge b, q.call_of_not_lt (e := e.withRand r) hge b⟩

/-! ## The result reference, case by case -/

/-- The result reference through a plain function. -/
theorem resultRefNoX_eq (opts : Options) (p : Replacement) (t : Sim L) (n : ℕ) (b : UWord)
    (m : CCRef L) : resultRefNoX opts n b m (t.withPointer (.basic p))
      = match p.call opts (.main .i1) n b t.engine with
        | .error fault => .error fault
        | .ok (false, e₁) => .ok (⟨⟩, { t.withPointer (.basic p) with engine := e₁ })
        | .ok (true, e₁) =>
          match p.call opts (.main .ll) ((e₁.caches (.main .ll)).setOf b) b e₁ with
          | .error fault => .error fault
          | .ok (missL, e₂) => .ok (⟨⟩, { t.withPointer (.basic p) with
              engine := e₂
              lines := if missL then addCC m 0 0 1 (addCC m 0 1 0 t.lines)
                else addCC m 0 1 0 t.lines }) := by
  rw [resultRefNoX, bind_of_ok (get_run _)]
  cases hi1 : p.call opts (.main .i1) n b t.engine with
  | error fault => exact bind_of_error (onEngine_error hi1)
  | ok x =>
    obtain ⟨miss, e₁⟩ := x
    refine (bind_of_ok (onEngine_ok (s := t.withPointer (.basic p)) hi1)).trans ?_
    cases miss with
    | false => rfl
    | true =>
      change (onEngine (p.call opts (.main .ll) _ b) >>= fun missL =>
        if missL then addMisses m 0 1 else pure ⟨⟩)
          { t.withPointer (.basic p) with engine := e₁, lines := addCC m 0 1 0 t.lines } = _
      dsimp only
      cases hll : p.call opts (.main .ll) ((e₁.caches (.main .ll)).setOf b) b e₁ with
      | error fault => exact bind_of_error (onEngine_error hll)
      | ok y =>
        refine (bind_of_ok (onEngine_ok hll)).trans ?_
        obtain ⟨missL, e₂⟩ := y
        cases missL <;> rfl

/-- **The result reference on one-way caches** has the same effects through every function. -/
theorem resultRefNoX_oneWay (p q : Replacement) (hi1 : (t.engine.caches (.main .i1)).assoc = 1)
    (hll : (t.engine.caches (.main .ll)).assoc = 1) (n : ℕ) (b : UWord) (m : CCRef L) :
    Agree (resultRefNoX opts n b m (t.withPointer (.basic p)))
      (resultRefNoX opts n b m (t.withPointer (.basic q))) := by
  rw [resultRefNoX_eq, resultRefNoX_eq]
  obtain ⟨fault, hp, hq⟩ | ⟨miss, e₁, r₁, hp, hq⟩ :=
    call_oneWay opts p q hi1 n b t.engine.rand
  · rw [hp, show q.call opts _ n b t.engine = _ from hq]
    rfl
  rw [hp, show q.call opts _ n b t.engine = _ from hq]
  cases miss with
  | false => rfl
  | true =>
    have hll₁ : (e₁.caches (.main .ll)).assoc = 1 := by rw [call_geometry hp, hll]
    obtain ⟨fault, hp₂, hq₂⟩ | ⟨missL, e₂, r₂, hp₂, hq₂⟩ :=
      call_oneWay opts p q hll₁ ((e₁.caches (.main .ll)).setOf b) b r₁
    · dsimp only
      rw [hp₂, show (e₁.withRand r₁).caches = e₁.caches from rfl, hq₂]
      rfl
    · dsimp only
      rw [hp₂, show (e₁.withRand r₁).caches = e₁.caches from rfl, hq₂]
      rfl

/-! ## When the paths agree -/

/-- The pointer does not matter, or is on random already: the approach does not run all shadow
policies; or I1 and LL have one way each; or the fast path is not taken at all. -/
def SameFunction (opts : Options) (s : Sim L) : Prop :=
  opts.cacheReplacementPolicy.runsShadows = false ∨ s.setrefIsMiss = .basic .random
    ∨ ((s.engine.caches (.main .i1)).assoc = 1 ∧ (s.engine.caches (.main .ll)).assoc = 1)
    ∨ (s.engine.caches (.main .i1)).lineSizeBits ≠ (s.engine.caches (.main .ll)).lineSizeBits

/-- **Moving the pointer shows in the result reference only**: the shadow loop of the fast path
either faults, or ends in a state in which the pointer can still be moved. -/
theorem I1DorefNoX_withPointer (hs : SimShape opts sh s)
    (hruns : opts.cacheReplacementPolicy.runsShadows = true) (m : CCRef L) (a : Addr) (size : ℕ) :
    (∃ fault, policyIndices.forM (irShadow opts sh a) { s with missesI := some m } = .error fault
        ∧ ∀ p, cachesimI1DorefNoX opts m a size (s.withPointer (.basic p)) = .error fault)
      ∨ ∃ t : Sim L,
        policyIndices.forM (irShadow opts sh a) { s with missesI := some m } = .ok (⟨⟩, t)
          ∧ ∀ p, cachesimI1DorefNoX opts m a size (s.withPointer (.basic p))
            = resultRefNoX opts (irSet sh .i1 a) (irBlock sh a) m
                (t.withPointer (.basic p)) := by
  have hrun : ∀ p, cachesimI1DorefNoX opts m a size (s.withPointer (.basic p))
      = (policyIndices.forM (irShadow opts sh a) >>= fun _ =>
          resultRefNoX opts (irSet sh .i1 a) (irBlock sh a) m)
          (Sim.withPointer (.basic p) { s with missesI := some m }) := by
    intro p
    rw [I1DorefNoX_run (⟨hs.1, fun _ => ⟨p, rfl⟩⟩ : SimShape opts sh (s.withPointer (.basic p))),
      if_pos hruns]
    rfl
  have hcomm : ∀ p, Commutes (Sim.withPointer (.basic p))
      (policyIndices.forM (irShadow opts sh a) : SimM L PUnit) := fun p =>
    .forM fun i => commutes_shadowIrNoX _ _ _ i
  cases hloop : policyIndices.forM (irShadow opts sh a) { s with missesI := some m } with
  | error fault =>
    refine .inl ⟨fault, rfl, fun p => ?_⟩
    rw [hrun, bind_of_error ((hcomm p).error hloop)]
  | ok x =>
    refine .inr ⟨x.2, rfl, fun p => ?_⟩
    rw [hrun, bind_of_ok ((hcomm p).ok hloop)]

omit [DecidableEq L] in
/-- A plain pointer, named. -/
theorem SimShape.withPointer_eq (hs : SimShape opts sh s)
    (hruns : opts.cacheReplacementPolicy.runsShadows = true) :
    ∃ p, s.setrefIsMiss = .basic p ∧ s.withPointer (.basic p) = s := by
  obtain ⟨p, hp⟩ := hs.2 hruns
  refine ⟨p, hp, ?_⟩
  rw [← hp]
  rfl

/-- **The paths agree if the function is the same.** -/
theorem agree_of_sameFunction (hsh : sh.Mirrored) (hs : SimShape opts sh s)
    (hsame : SameFunction opts s) (m : CCRef L) (h : cachesimIsIrNoX s a size = true) :
    Agree (cachesimI1DorefGen opts m a size s) (cachesimI1DorefNoX opts m a size s) := by
  have hone := oneLine_of_isIrNoX hs h
  rw [I1DorefGen_eq hsh hs hone]
  split
  swap
  · rfl
  next hruns =>
  obtain ⟨p, hp, hsp⟩ := hs.withPointer_eq hruns
  rcases hsame with hno | hrandom | ⟨hi1, hll⟩ | hbits
  · rw [hno] at hruns
    cases hruns
  · obtain rfl : p = .random := MissFn.basic.inj (hp.symm.trans hrandom)
    rw [hsp]
    rfl
  · have hs₁ : SimShape opts sh { s with missesI := some m } := hs
    have hfast : cachesimI1DorefNoX opts m a size s
        = cachesimI1DorefNoX opts m a size (s.withPointer (.basic p)) := by rw [hsp]
    rw [hfast]
    rcases I1DorefNoX_withPointer hs hruns m a size with ⟨fault, -, hfault⟩ | ⟨t, hloop, ht⟩
    · rw [hfault, hfault]
      rfl
    · have hshape := (Spec.forM fun i _ => simKeeps_irShadow hsh a i).ok hs₁ hloop
      have hassoc : ∀ c, (t.engine.caches c).assoc = (s.engine.caches c).assoc := fun c => by
        rw [geom_eq hshape.1, geom_eq hs.1]
      rw [ht, ht]
      exact resultRefNoX_oneWay _ _ ((hassoc _).trans hi1) ((hassoc _).trans hll) _ _ m
  · rw [geom_eq hs.1, geom_eq hs.1] at hbits
    exact absurd hone.lineSizeBits hbits

/-! ## Draws that tell the functions apart -/

omit [DecidableEq L] in
theorem promotingRef_stream {install : List UWord → RandomStream → List UWord × RandomStream}
    {r : RandomStream} (h : (install set r).2 = r) (assoc : ℕ) (tag : UWord) :
    (promotingRef install assoc set tag r).2.2 = r := by
  unfold promotingRef
  split
  · rfl
  split
  · rfl
  · exact h

/-- A constant stream stays constant. -/
theorem waysFn_const (throttle : ℚ) (p : Replacement) (assoc : ℕ) (set : List UWord) (b : UWord)
    (d : ℕ) : (p.waysFn throttle assoc set b fun _ => d).2.2 = fun _ => d := by
  cases p with
  | lru | lip => exact promotingRef_stream rfl _ _
  | bip =>
    refine promotingRef_stream ?_ _ _
    dsimp only
    split
    · rfl
    split
    · rfl
    split
    · rfl
    · rfl
  | random | fifo =>
    change (stayingRef _ _ _ _ _).2.2 = _
    unfold stayingRef
    split
    · rfl
    · rfl

/-- A tag installed at the front is not one installed over another way. -/
theorem cons_dropLast_ne_set (hb : b ∉ set) {j : ℕ} (hj : j ≠ 0) :
    b :: set.dropLast ≠ set.set j b := by
  intro heq
  have hget := congrArg (·[0]?) heq
  simp only [getElem?_cons_zero, getElem?_set_ne hj] at hget
  exact hb (mem_of_getElem? hget.symm)

/-- Tags installed over two ways. -/
theorem set_ne_set (hb : b ∉ set) {i j : ℕ} (hi : i < set.length) (hij : i ≠ j) :
    set.set i b ≠ set.set j b := by
  intro heq
  have hget := congrArg (·[i]?) heq
  simp only [getElem?_set_self hi, getElem?_set_ne hij.symm] at hget
  exact hb (mem_of_getElem? hget.symm)

/-- A draw on which a function leaves other ways than random, whatever the set holds. -/
def TellsApart (throttle : ℚ) (p : Replacement) (assoc d : ℕ) : Prop :=
  ∀ (set : List UWord) (b : UWord), set.length = assoc → b ∉ set →
    (p.waysFn throttle assoc set b fun _ => d).2.1
      ≠ (Replacement.random.waysFn throttle assoc set b fun _ => d).2.1

theorem random_miss {d : ℕ} (hlen : set.length = assoc) (hb : b ∉ set) :
    (Replacement.random.waysFn throttle assoc set b fun _ => d).2.1 = set.set (d % assoc) b := by
  rw [Replacement.waysFn, randomWays_eq hlen, if_neg hb]

theorem tellsApart_of_front {d : ℕ} (hd : d % assoc ≠ 0) (h : ∀ set b, set.length = assoc →
      b ∉ set → (p.waysFn throttle assoc set b fun _ => d).2.1 = b :: set.dropLast) :
    TellsApart throttle p assoc d := by
  intro set b hlen hb
  rw [h set b hlen hb, random_miss hlen hb]
  exact cons_dropLast_ne_set hb hd

theorem tellsApart_of_last {d : ℕ} (hpos : 0 < assoc) (hd : d % assoc ≠ assoc - 1)
    (h : ∀ set b, set.length = assoc → b ∉ set →
      (p.waysFn throttle assoc set b fun _ => d).2.1 = set.set (assoc - 1) b) :
    TellsApart throttle p assoc d := by
  intro set b hlen hb
  rw [h set b hlen hb, random_miss hlen hb]
  exact set_ne_set hb (by omega) (hd.symm)

/-- **Every function but random is told apart** on two ways and more. -/
theorem exists_tellsApart (throttle : ℚ) (hp : p ≠ .random) (hassoc : 2 ≤ assoc) :
    ∃ d, TellsApart throttle p assoc d := by
  have hpos : 0 < assoc := by omega
  have hone : 1 % assoc ≠ 0 := by rw [mod_eq_of_lt (by omega)]; omega
  have hzero : 0 % assoc ≠ assoc - 1 := by rw [zero_mod]; omega
  cases p with
  | lru =>
    refine ⟨1, tellsApart_of_front hone fun set b hlen hb => ?_⟩
    rw [Replacement.waysFn, lruWays_eq hlen hpos, if_neg hb]
  | fifo =>
    refine ⟨1, tellsApart_of_front hone fun set b hlen hb => ?_⟩
    rw [Replacement.waysFn, fifoWays_eq hlen hpos, if_neg hb]
  | lip =>
    refine ⟨0, tellsApart_of_last hpos hzero fun set b hlen hb => ?_⟩
    rw [Replacement.waysFn, lipWays_eq hlen hpos, if_neg hb]
  | random => exact absurd rfl hp
  | bip =>
    by_cases hfront : BipFront throttle 1
    · exact ⟨1, tellsApart_of_front hone fun set b hlen hb => bipWays_of_front hlen hpos hb hfront⟩
    rcases eq_or_ne assoc 2 with rfl | hne
    · have hlast : ¬ BipFront throttle 2 := by
        rintro (h1 | ⟨h0, hlt⟩)
        · exact hfront (.inl h1)
        · refine hfront (.inr ⟨h0, lt_of_le_of_lt ?_ hlt⟩)
          norm_num
      exact ⟨2, tellsApart_of_last hpos (by decide) fun set b hlen hb =>
        bipWays_of_not_front hlen hpos hb hlast⟩
    · refine ⟨1, tellsApart_of_last hpos ?_ fun set b hlen hb =>
        bipWays_of_not_front hlen hpos hb hfront⟩
      rw [mod_eq_of_lt (by omega)]
      omega

/-! ## A read that misses everywhere -/

/-- The caches of a level can be referred to: there are sets and ways, and the mask fits. -/
structure Shape.Usable (sh : Shape) (l : Level) : Prop where
  sets : 1 ≤ (sh.geom (.main l)).sets
  ways : 1 ≤ (sh.geom (.main l)).assoc
  mask : (sh.geom (.main l)).setsMin1 = (sh.geom (.main l)).sets - 1

theorem Shape.Usable.irSet_lt (h : sh.Usable l) (a : Addr) :
    (irSet sh l a : ℤ) < (sh.geom (.main l)).sets := Geometry.setOf_lt h.sets h.mask _

/-- The result I1 and LL caches are `I1` and `LL`, and every draw is `d`. -/
structure Primed (sh : Shape) (I1 LL : CacheT2) (d : ℕ) (e : Engine) : Prop where
  shape : HasShape sh e
  i1 : e.caches (.main .i1) = I1
  ll : e.caches (.main .ll) = LL
  rand : e.rand = fun _ => d

variable {I1 LL : CacheT2} {d k : ℕ} {config : CacheT}

/-- A shadow reference in range returns, and leaves the result caches and the draws. -/
theorem spec_shadow_call (hsh : sh.Mirrored) (p : Replacement) (i : Fin 4) (hl : l ≠ .d1)
    (hu : sh.Usable l) (a : Addr) (b : UWord) :
    Keeps (Primed sh I1 LL d) (p.call opts (.shadow i l) (irSet sh l a) b) (fun _ => False) := by
  intro e he
  have hlt : (irSet sh l a : ℤ) < (e.caches (.shadow i l)).sets
      ∧ 1 ≤ (e.caches (.shadow i l)).assoc := by
    rw [he.shape.geom_eq, hsh.mirror i l hl]
    exact ⟨hu.irSet_lt a, hu.ways⟩
  rw [p.call_of_lt hlt]
  refine ends_ok ⟨he.shape.writeRow _ _ _ _, ?_, ?_, ?_⟩
  · dsimp only
    rw [update_of_ne (by simp), he.i1]
  · dsimp only
    rw [update_of_ne (by simp), he.ll]
  · change (p.waysFn _ _ _ _ e.rand).2.2 = _
    rw [he.rand]
    exact waysFn_const _ _ _ _ _ _

omit [DecidableEq L] in
/-- **The shadow loop of the fast path returns.** -/
theorem spec_irShadow (hsh : sh.Mirrored) (hi1 : sh.Usable .i1) (hll : sh.Usable .ll) (a : Addr)
    (i : Fin 4) :
    Keeps (fun s : Sim L => Primed sh I1 LL d s.engine) (irShadow opts sh a i) (fun _ => False) := by
  have hcall : ∀ {l : Level} (_ : l ≠ .d1) (_ : sh.Usable l),
      Keeps (fun s : Sim L => Primed sh I1 LL d s.engine)
        (onEngine ((missFunctions i).call opts (.shadow i l) (irSet sh l a) (irBlock sh a)))
        (fun _ => False) := fun hl hu =>
    (spec_onEngine (R := fun _ => True) (spec_shadow_call hsh _ i hl hu a _) fun _ _ h => h).mono
      (fun _ h => ⟨h, trivial⟩) (fun _ _ h => h.1) fun _ h => h
  have hpolicy : ∀ f : Policy → Policy, (∀ p, (f p).isMissFunc = p.isMissFunc) →
      Keeps (fun s : Sim L => Primed sh I1 LL d s.engine) (onPolicy i f) (fun _ => False) :=
    fun f hf =>
    .modify fun _ hs => ⟨hs.shape.setPolicy i hf, hs.i1, hs.ll, hs.rand⟩
  have hfunc : ∀ s : Sim L, Primed sh I1 LL d s.engine →
      (s.engine.policies i).isMissFunc = .basic (missFunctions i) := fun s hs =>
    (congrArg (Shape.func · i) hs.shape).trans (hsh.basic i)
  refine .get_bind fun s₀ hs₀ => ?_
  rw [hfunc s₀ hs₀]
  refine Spec.bind (hcall (by decide) hi1) fun _ => Keeps.when fun _ => ?_
  refine Spec.get_bind fun s₁ hs₁ => ?_
  rw [hfunc s₁ hs₁, hs₁.shape.geom_eq]
  exact .bind (hpolicy _ fun _ => rfl) fun _ => .bind (hcall (by decide) hll) fun _ =>
    Keeps.when fun _ => hpolicy _ fun _ => rfl

/-- The row a function leaves behind a miss. -/
def missRow (opts : Options) (p : Replacement) (d : ℕ) (c : CacheT2) (n : ℕ) (b : UWord) :
    List UWord := (p.waysFn opts.bipThrottleParameter c.ways (c.row n) b fun _ => d).2.1

/-- A call in range, to a block the cache does not hold. -/
theorem call_of_fresh (p : Replacement) (hc : e.caches c = C) (hr : e.rand = fun _ => d)
    (hlt : (n : ℤ) < C.sets ∧ 1 ≤ C.assoc) (hb : b ∉ C.tags) :
    ∃ e₁, p.call opts c n b e = .ok (true, e₁)
      ∧ e₁.caches = Function.update e.caches c (C.writeRow n (missRow opts p d C n b))
      ∧ e₁.rand = fun _ => d := by
  obtain ⟨hlen, hpos⟩ := C.row_of_lt hlt
  have hspec := refSpec_waysFn opts.bipThrottleParameter p hlen hpos b fun _ => d
  have hmiss : (p.waysFn opts.bipThrottleParameter C.ways (C.row n) b fun _ => d).1 = true :=
    Bool.eq_true_of_not_eq_false fun h =>
      hb (CacheT2.mem_tags_of_mem_row (hspec.miss_eq_false_iff.mp h))
  subst hc
  have hcall : p.call opts c n b e = .ok (_, _) := p.call_of_lt hlt b
  rw [hr, hmiss, waysFn_const] at hcall
  exact ⟨_, hcall, rfl, rfl⟩

/-- **The result reference to a block neither cache holds.** -/
theorem resultRefNoX_of_fresh (opts : Options) (hi1 : sh.Usable .i1) (hll : sh.Usable .ll)
    (ht : Primed sh I1 LL d t.engine) (hI1 : irBlock sh a ∉ I1.tags)
    (hLL : irBlock sh a ∉ LL.tags) (p : Replacement) (m : CCRef L) :
    ∃ t', resultRefNoX opts (irSet sh .i1 a) (irBlock sh a) m
        (t.withPointer (.basic p)) = .ok (⟨⟩, t')
      ∧ t'.engine.caches (.main .i1) = I1.writeRow (irSet sh .i1 a)
          (missRow opts p d I1 (irSet sh .i1 a) (irBlock sh a))
      ∧ t'.engine.caches (.main .ll) = LL.writeRow (irSet sh .ll a)
          (missRow opts p d LL (irSet sh .ll a) (irBlock sh a)) := by
  have hgI1 : I1.toGeometry = sh.geom (.main .i1) := by rw [← ht.i1, ht.shape.geom_eq]
  have hgLL : LL.toGeometry = sh.geom (.main .ll) := by rw [← ht.ll, ht.shape.geom_eq]
  obtain ⟨e₁, hfirst, hcaches₁, hrand₁⟩ : ∃ e₁, p.call opts (.main .i1) _ _ t.engine
      = .ok (true, e₁) ∧ _ := call_of_fresh p ht.i1 ht.rand
    (by rw [hgI1]; exact ⟨hi1.irSet_lt a, hi1.ways⟩) hI1
  have hLL₁ : e₁.caches (.main .ll) = LL := by rw [hcaches₁, update_of_ne (by simp), ht.ll]
  obtain ⟨e₂, hsecond, hcaches₂, -⟩ : ∃ e₂, p.call opts (.main .ll) _ _ e₁
      = .ok (true, e₂) ∧ _ := call_of_fresh p hLL₁ hrand₁
    (by rw [hgLL]; exact ⟨hll.irSet_lt a, hll.ways⟩) hLL
  have hset : (e₁.caches (.main .ll)).setOf (irBlock sh a) = irSet sh .ll a := by
    rw [hLL₁, hgLL, irSet]
  rw [← hset] at hsecond
  refine ⟨_, (resultRefNoX_eq opts p t _ _ m).trans
    (by rw [hfirst]; dsimp only; rw [hsecond]), ?_, ?_⟩
  · dsimp only
    rw [hcaches₂, update_of_ne (by simp), hcaches₁, update_self]
  · dsimp only
    rw [hcaches₂, update_self]

/-! ## The exact condition -/

omit [DecidableEq L] in
/-- A block that neither of two arrays holds. -/
theorem exists_fresh (tags tags' : List UWord) :
    ∃ b ≤ tags.length + tags'.length, b ∉ tags ∧ b ∉ tags' := by
  have hcard : (tags ++ tags').toFinset.card
      < (Finset.range (tags.length + tags'.length + 1)).card := by
    rw [Finset.card_range]
    have := toFinset_card_le (tags ++ tags')
    rw [length_append] at this
    omega
  obtain ⟨b, hb, hnot⟩ := Finset.exists_mem_notMem_of_card_lt_card hcard
  rw [mem_toFinset, mem_append, not_or] at hnot
  exact ⟨b, Nat.lt_succ_iff.mp (Finset.mem_range.mp hb), hnot⟩

/-- The shape of every state a run reaches: the caches of the configurations, mirrored. -/
theorem exists_mirrored {I1c D1c LLc : CacheT} (hs : Reachable opts I1c D1c LLc s) :
    ∃ (sh : Shape) (I1 LL : CacheT2), sh.Mirrored ∧ SimShape opts sh s ∧ InitSpec I1c I1
      ∧ InitSpec LLc LL ∧ sh.geom (.main .i1) = I1.toGeometry
      ∧ sh.geom (.main .ll) = LL.toGeometry := by
  obtain ⟨loc, r, s₀, calls, hinit, hrun⟩ := hs
  obtain ⟨I1, D1, LL, D1s, hI1, hD1, hLL, hD1s, -, rfl⟩ := initcaches_ok hinit
  have hreg := regular_init opts I1 D1 LL I1 D1s LL r
  refine ⟨_, I1, LL, ⟨hreg, fun i l hl => ?_⟩,
    (simKeeps_runCalls hreg calls).ok (simShape_start opts _ loc) hrun, initSpec_of_ok hI1,
    initSpec_of_ok hLL, rfl, rfl⟩
  cases l with
  | d1 => exact absurd rfl hl
  | i1 => rfl
  | ll => rfl

theorem usable_of_accepted (hspec : InitSpec config C)
    (hg : sh.geom (.main l) = C.toGeometry) (hacc : config.Accepted k) (hassoc : 1 ≤ config.assoc) :
    sh.Usable l where
  sets := by
    rw [hg, hspec.sets_eq]
    exact one_le_sets hacc hassoc
  ways := by
    rw [hg, hspec.assoc_eq]
    exact hassoc
  mask := by
    rw [hg]
    exact hspec.setsMin1_eq

/-- A cache holds fewer than `2 ^ 31` tags. -/
theorem length_tags_lt {c : CacheT2} (hspec : InitSpec config C)
    (hacc : config.Accepted k) (hint : config.FitsInt) (hassoc : 1 ≤ config.assoc)
    (hg : c.toGeometry = C.toGeometry) : c.tags.length < 2 ^ 31 := by
  have hline : 0 < config.lineSize := by rw [hacc.lineSize_eq]; positivity
  have hsize : 0 ≤ config.size := by have := hacc.lineSize_lt_size; omega
  have hdiv : 0 ≤ config.size / config.lineSize := Int.ediv_nonneg hsize hline.le
  have hcount : c.sets * c.assoc ≤ config.size := by
    rw [hg, hspec.sets_eq, hspec.assoc_eq, CacheT.setCount, Int.tdiv_eq_ediv_of_nonneg hsize,
      Int.tdiv_eq_ediv_of_nonneg hdiv]
    exact (Int.ediv_mul_le _ (by omega)).trans (Int.ediv_le_self _ hsize)
  have hlt := hint.size_lt
  rw [c.tags_length]
  omega

/-- The tags left behind a miss differ if the functions are told apart. -/
theorem tags_missRow_ne (opts : Options)
    (hd : TellsApart opts.bipThrottleParameter p C.ways d)
    (hlt : (n : ℤ) < C.sets ∧ 1 ≤ C.assoc) (hb : b ∉ C.tags) :
    (C.writeRow n (missRow opts .random d C n b)).tags
      ≠ (C.writeRow n (missRow opts p d C n b)).tags := by
  intro heq
  obtain ⟨hlen, hpos⟩ := C.row_of_lt hlt
  have hlens : ∀ q, (missRow opts q d C n b).length = C.ways := fun q =>
    ((refSpec_waysFn opts.bipThrottleParameter q hlen hpos b fun _ => d).length_eq
      (by omega)).trans hlen
  have hrow := (CacheT2.writeRow_inj (by omega) hlt.1 (hlens .random) (hlens p)).mp
    (CacheT2.ext_tags rfl heq)
  exact hd (C.row n) b hlen (fun h => hb (CacheT2.mem_tags_of_mem_row h)) hrow.symm

/-- **A stream and an instruction on which the paths differ**, at a level with two ways. -/
theorem exists_disagreement [Inhabited L] (hsh : sh.Mirrored) (hs : SimShape opts sh s)
    (hi1 : sh.Usable .i1) (hll : sh.Usable .ll) (hk : k < 31)
    (hI1 : (sh.geom (.main .i1)).lineSizeBits = k) (hLL : (sh.geom (.main .ll)).lineSizeBits = k)
    (hlenI : (s.engine.caches (.main .i1)).tags.length < 2 ^ 31)
    (hlenL : (s.engine.caches (.main .ll)).tags.length < 2 ^ 31)
    (hruns : opts.cacheReplacementPolicy.runsShadows = true)
    (hpointer : s.setrefIsMiss ≠ .basic .random) (hl : l ≠ .d1)
    (hways : 2 ≤ (sh.geom (.main l)).assoc) : ∃ r m a size, cachesimIsIrNoX s a size = true
      ∧ ¬ Agree (cachesimI1DorefGen opts m a size (s.withRand r))
        (cachesimI1DorefNoX opts m a size (s.withRand r)) := by
  obtain ⟨p, hp, -⟩ := hs.withPointer_eq hruns
  have hrandom : p ≠ .random := fun h => hpointer (hp.trans (congrArg _ h))
  obtain ⟨d, hd⟩ := exists_tellsApart opts.bipThrottleParameter hrandom
    (show 2 ≤ (sh.geom (.main l)).assoc.toNat by omega)
  obtain ⟨b, hble, hbI, hbL⟩ := exists_fresh (s.engine.caches (.main .i1)).tags
    (s.engine.caches (.main .ll)).tags
  have ha : b <<< k < 2 ^ 64 := by
    have hpow : 2 ^ k ≤ 2 ^ 30 := Nat.pow_le_pow_right (by norm_num) (by omega)
    rw [shiftLeft_eq]
    calc b * 2 ^ k ≤ 2 ^ 32 * 2 ^ 30 := Nat.mul_le_mul (by omega) hpow
      _ < 2 ^ 64 := by norm_num
  have hblock : (sh.geom (.main .i1)).block (b <<< k) = b := block_shiftLeft hI1 b
  have hnoX : cachesimIsIrNoX s (b <<< k) 1 = true := by
    unfold cachesimIsIrNoX
    dsimp only
    rw [geom_eq hs.1, geom_eq hs.1, hI1, hLL, if_neg (not_not.mpr rfl),
      lastBlock_one _ ha]
    exact decide_eq_true rfl
  refine ⟨fun _ => d, ⟨default, .ir⟩, b <<< k, 1, hnoX, fun hagree => ?_⟩
  have hs' : SimShape opts sh (s.withRand fun _ => d) := hs
  rw [I1DorefGen_eq hsh hs' (oneLine_of_isIrNoX hs' hnoX), if_pos hruns] at hagree
  have hsp : (s.withRand fun _ => d).withPointer (.basic p) = s.withRand fun _ => d := by
    rw [← hp]
    rfl
  have hprimed : Primed sh (s.engine.caches (.main .i1)) (s.engine.caches (.main .ll)) d
      ({ s.withRand fun _ => d with missesI := some ⟨default, .ir⟩ } : Sim L).engine :=
    ⟨hs.1, rfl, rfl, rfl⟩
  have hloops : Keeps (fun u : Sim L => Primed sh (s.engine.caches (.main .i1))
      (s.engine.caches (.main .ll)) d u.engine) (policyIndices.forM (irShadow opts sh (b <<< k)))
      (fun _ => False) := .forM fun i _ => spec_irShadow hsh hi1 hll (b <<< k) i
  rcases I1DorefNoX_withPointer hs' hruns ⟨default, .ir⟩ (b <<< k) 1 with
    ⟨fault, hloop, -⟩ | ⟨t, hloop, ht⟩
  · exact hloops.error hprimed hloop
  have hprimed' := hloops.ok hprimed hloop
  rw [← hblock] at hbI hbL
  have hfresh := fun q => resultRefNoX_of_fresh opts hi1 hll hprimed' hbI hbL q ⟨default, .ir⟩
  obtain ⟨t₁, ht₁, hI1₁, hLL₁⟩ := hfresh .random
  obtain ⟨t₂, ht₂, hI1₂, hLL₂⟩ := hfresh p
  rw [ht, ht₁, ← hsp, ht, ht₂] at hagree
  have htags : ∀ c, (t₁.engine.caches c).tags = (t₂.engine.caches c).tags := fun c =>
    congrFun (congrArg Effects.tags (Except.ok.inj hagree)) c
  have hC := geom_eq hs.1 (.main l)
  have hne := fun (hu : sh.Usable l) => tags_missRow_ne opts (p := p)
    (C := s.engine.caches (.main l)) (b := irBlock sh (b <<< k))
    (by rw [CacheT2.ways, hC]; exact hd) (by rw [hC]; exact ⟨hu.irSet_lt (b <<< k), hu.ways⟩)
  cases l with
  | d1 => exact hl rfl
  | i1 => exact hne hi1 hbI (by rw [← hI1₁, ← hI1₂]; exact htags _)
  | ll => exact hne hll hbL (by rw [← hLL₁, ← hLL₂]; exact htags _)

/-- **The fast path agrees with the generic path iff the function is the same**: in every state a
run reaches the same function gives the same effects; and where I1 and LL have ways at all, any
other state has a random stream and an instruction on which the effects differ. -/
theorem fast_path_agrees [Inhabited L] {I1c D1c LLc : CacheT} {s : Sim L}
    (hs : Reachable opts I1c D1c LLc s) :
    (SameFunction opts s → ∀ m a size, cachesimIsIrNoX s a size = true →
        Agree (cachesimI1DorefGen opts m a size s) (cachesimI1DorefNoX opts m a size s))
      ∧ (checkCache I1c = none → checkCache LLc = none → I1c.FitsInt → LLc.FitsInt →
        1 ≤ I1c.assoc → 1 ≤ LLc.assoc →
        (∀ r m a size, cachesimIsIrNoX s a size = true →
          Agree (cachesimI1DorefGen opts m a size (s.withRand r))
            (cachesimI1DorefNoX opts m a size (s.withRand r))) →
        SameFunction opts s) := by
  obtain ⟨sh, I1₀, LL₀, hsh, hshape, hI1₀, hLL₀, hgI1, hgLL⟩ := exists_mirrored hs
  refine ⟨fun hsame m a size h => agree_of_sameFunction hsh hshape hsame m h, ?_⟩
  intro hI hL hIint hLint hIa hLa hagree
  obtain ⟨kI, hIacc⟩ := accepted_of_checkCache hIint hI
  obtain ⟨kL, hLacc⟩ := accepted_of_checkCache hLint hL
  have hi1 := usable_of_accepted hI1₀ hgI1 hIacc hIa
  have hll := usable_of_accepted hLL₀ hgLL hLacc hLa
  by_contra hnot
  simp only [SameFunction, not_or, not_not, Bool.not_eq_false] at hnot
  obtain ⟨hruns, hpointer, hways, hbits⟩ := hnot
  have hgeom := geom_eq hshape.1
  have hlt : kI < 31 := hIacc.lt
  have hbitsI : (sh.geom (.main .i1)).lineSizeBits = kI := by
    rw [hgI1]
    exact hI1₀.lineSizeBits_of_pow hIacc.lineSize_eq (by omega)
  have hbitsL : (sh.geom (.main .ll)).lineSizeBits = kI := by
    rw [← hbitsI, ← hgeom, ← hgeom, hbits]
  obtain ⟨l, hl, htwo⟩ : ∃ l, l ≠ .d1 ∧ 2 ≤ (sh.geom (.main l)).assoc := by
    rw [hgeom, hgeom] at hways
    rcases eq_or_ne (sh.geom (.main .i1)).assoc 1 with hone | hne
    · have := hll.ways
      exact ⟨.ll, by decide, by have := fun h => hways ⟨hone, h⟩; omega⟩
    · have := hi1.ways
      exact ⟨.i1, by decide, by omega⟩
  obtain ⟨r, m, a, size, hnoX, hdis⟩ := exists_disagreement hsh hshape hi1 hll hlt hbitsI hbitsL
    (length_tags_lt hI1₀ hIacc hIint hIa ((hgeom _).trans hgI1))
    (length_tags_lt hLL₀ hLacc hLint hLa ((hgeom _).trans hgLL)) hruns hpointer hl htwo
  exact hdis (hagree r m a size hnoX)

/-- `fix`. -/
def fixOptions : Options := { dip3Options with cacheReplacementPolicy := .fixedWindow }

/-- In the fixed window, one-way caches agree at start-up, and two-way caches do not. -/
theorem fast_path_agrees_fix :
    (∃ s₀ : Sim Unit, cachesimInitcaches fixOptions ⟨32, 1, 16⟩ ⟨32, 1, 16⟩ ⟨32, 1, 16⟩
          (fun _ => ⟨"a", "f", 1⟩) lcgStream = .ok s₀
        ∧ ∀ m a size, cachesimIsIrNoX s₀ a size = true →
          Agree (cachesimI1DorefGen fixOptions m a size s₀)
            (cachesimI1DorefNoX fixOptions m a size s₀))
      ∧ ∃ s₀ : Sim Unit, cachesimInitcaches fixOptions ⟨64, 2, 16⟩ ⟨64, 2, 16⟩ ⟨64, 2, 16⟩
          (fun _ => ⟨"a", "f", 1⟩) lcgStream = .ok s₀
        ∧ ¬ ∀ r m a size, cachesimIsIrNoX s₀ a size = true →
          Agree (cachesimI1DorefGen fixOptions m a size (s₀.withRand r))
            (cachesimI1DorefNoX fixOptions m a size (s₀.withRand r)) := by
  refine ⟨⟨_, (and_iff_left_of_imp fun hinit => (fast_path_agrees ⟨_, _, _, [], hinit, rfl⟩).1
    (.inr (.inr (.inl ⟨rfl, rfl⟩)))).mpr rfl⟩,
    _, (and_iff_left_of_imp fun hinit hagree => ?_).mpr rfl⟩
  have hsame := (fast_path_agrees ⟨_, _, _, [], hinit, rfl⟩).2 (by decide) (by decide)
    ⟨by decide, by decide, by decide⟩ ⟨by decide, by decide, by decide⟩ (by decide) (by decide)
    hagree
  rcases hsame with h | h | ⟨h, -⟩ | h
  · exact absurd h (by decide)
  · exact absurd h (by decide)
  · exact absurd h (by decide)
  · exact h rfl

/-- **The first instruction read of a run under `fix`**: the generic path puts the block where
random does, the fast path in way `0`, where LRU does. -/
theorem fast_path_disagrees : ∃ (s₀ s₁ s₂ : Sim Unit),
    cachesimInitcaches fixOptions ⟨64, 2, 16⟩ ⟨64, 2, 16⟩ ⟨64, 2, 16⟩ (fun _ => ⟨"a", "f", 1⟩)
        (fun _ => 1) = .ok s₀
      ∧ cachesimIsIrNoX s₀ 4096 4 = true
      ∧ cachesimI1DorefGen fixOptions ⟨(), .ir⟩ 4096 4 s₀ = .ok (⟨⟩, s₁)
      ∧ cachesimI1DorefNoX fixOptions ⟨(), .ir⟩ 4096 4 s₀ = .ok (⟨⟩, s₂)
      ∧ (s₁.engine.caches (.main .i1)).row 0 = [0, 256]
      ∧ (s₂.engine.caches (.main .i1)).row 0 = [256, 0] := by
  have htest : reaches fixOptions ⟨64, 2, 16⟩ ⟨64, 2, 16⟩ ⟨64, 2, 16⟩
      (fun _ : Unit => ⟨"a", "f", 1⟩) (fun _ => 1) [] (fun s _ =>
        (do
          let r₁ ← cachesimI1DorefGen fixOptions ⟨(), .ir⟩ 4096 4 s
          let r₂ ← cachesimI1DorefNoX fixOptions ⟨(), .ir⟩ 4096 4 s
          pure (decide (cachesimIsIrNoX s 4096 4 = true
            ∧ (r₁.2.engine.caches (.main .i1)).row 0 = [0, 256]
            ∧ (r₂.2.engine.caches (.main .i1)).row 0 = [256, 0]))) = .ok true) = true := by
    decide +kernel
  obtain ⟨s₀, s, hinit, -, hs⟩ := exists_of_reaches fixOptions htest
  obtain ⟨r₁, hGen, hs⟩ := bind_eq_ok.mp hs
  obtain ⟨r₂, hNoX, hs⟩ := bind_eq_ok.mp hs
  obtain ⟨hnoX, hrow₁, hrow₂⟩ := of_decide_eq_true (Except.ok.inj hs)
  exact ⟨s₀, r₁.2, r₂.2, hinit, hnoX, hGen, hNoX, hrow₁, hrow₂⟩

end Read

end Valgrind.Cachegrind
