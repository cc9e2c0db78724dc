import Valgrind.Cachegrind.Counters

/-!
# Cachegrind/Selector — which of two shadow caches `dip` follows

`psel` counts up when the LRU shadow of D1 misses and down when the BIP shadow does, and stops at 0
and 15.  A reference that misses in both moves it up and then down: that is no movement, unless it
could not go up (`dip_selector`, `psel_drops_at_max`).
-/

open Hoare

namespace Valgrind.Cachegrind

open Replacement (lru bip)

variable {L : Type} {opts : Options} {e e' : Engine} {n : ℕ} {tag : UWord} {miss : Bool}

/-- How the selector moves. -/
structure Moves (lruMiss bipMiss : Bool) (psel psel' : ℕ) : Prop where
  le_max : psel' ≤ 15
  lru : lruMiss = true → bipMiss = false → psel' = min (psel + 1) 15
  bip : lruMiss = false → bipMiss = true → psel' = psel - 1
  same : lruMiss = bipMiss → psel' = if lruMiss = true ∧ psel = 15 then 14 else psel

theorem moves_dipSelect (lruMiss bipMiss : Bool) {psel : ℕ} (h : psel ≤ 15) :
    Moves lruMiss bipMiss psel (dipSelect lruMiss bipMiss psel) := by
  unfold dipSelect pselUp pselDown
  constructor <;> grind

/-- The set functions do not look at the selector. -/
theorem psel_call {p : Replacement} {c : CacheRef} (h : p.call opts c n tag e = .ok (miss, e')) :
    e'.psel = e.psel := by
  unfold Replacement.call onCache at h
  split at h
  · cases h
  · cases h
    rfl

/-- A reference to D1 asks both shadow caches. -/
theorem dip_d1_ok (h : MissFn.dip.call opts (.main .d1) n tag e = .ok (miss, e')) :
    ∃ lruMiss bipMiss e₁ e₂, lru.call opts (.shadow 0 .d1) n tag e = .ok (lruMiss, e₁)
      ∧ bip.call opts (.shadow 2 .d1) n tag e₁ = .ok (bipMiss, e₂)
      ∧ e'.psel = dipSelect lruMiss bipMiss e.psel := by
  obtain ⟨lruMiss, e₁, hlru, h⟩ := bind_eq_ok_iff.mp h
  obtain ⟨bipMiss, e₂, hbip, h⟩ := bind_eq_ok_iff.mp h
  obtain ⟨⟨⟩, e₃, hmod, h⟩ := bind_eq_ok_iff.mp h
  obtain ⟨e₄, _, hget, h⟩ := bind_eq_ok_iff.mp h
  cases hmod
  cases hget
  refine ⟨lruMiss, bipMiss, e₁, e₂, hlru, hbip, ?_⟩
  rw [← psel_call hlru, ← psel_call hbip]
  split_ifs at h
  · exact psel_call h
  · exact psel_call h

/-- A program of the engine keeps the selector in its range. -/
abbrev KeepsPsel (m : EngineM Bool) : Prop := Keeps (·.psel ≤ 15) m fun _ => True

/-- **A set reference of `dip`** does, at every level. -/
theorem keepsPsel_dip (l : Level) (n : ℕ) (tag : UWord) :
    KeepsPsel (MissFn.dip.call opts (.main l) n tag) := by
  have hcall : ∀ p c, KeepsPsel (Replacement.call opts p c n tag) := fun p c e he =>
    ⟨fun _ _ h => (psel_call h).trans_le he, fun _ _ => trivial⟩
  cases l with
  | d1 =>
    exact fun e he => ⟨fun miss e' h => by
      obtain ⟨lruMiss, bipMiss, -, -, -, -, hmove⟩ := dip_d1_ok h
      exact hmove ▸ (moves_dipSelect lruMiss bipMiss he).le_max, fun _ _ => trivial⟩
  | ll | i1 =>
    exact .bind (hcall _ _) fun _ => .bind (hcall _ _) fun _ => hcall _ _

variable [DecidableEq L]

/-- **A whole run** in `dip` mode keeps the selector in its range, and the function pointer. -/
theorem keepsDip_runCalls (hmode : opts.cacheReplacementPolicy = .dipPolicy)
    (calls : List (HelperCall L)) :
    Keeps (Sim.Has (·.psel ≤ 15) (· = .dip)) (runCalls opts calls) fun _ => True := by
  have hcall : ∀ f (e : Engine), f = MissFn.dip → e.psel ≤ 15 → ∀ l block,
      KeepsPsel (f.call opts (.main l) ((e.caches (.main l)).setOf block) block) := by
    rintro f e rfl - l block
    exact keepsPsel_dip l _ block
  have hruns : ¬ opts.cacheReplacementPolicy.runsShadows = true := by rw [hmode]; decide
  refine keeps_runCalls (fun m a size => keeps_I1DorefGen hcall trivial m a size (absurd · hruns))
    (fun m a size => keeps_I1DorefNoX hcall m a size (absurd · hruns)) (fun m a size => ?_)
    trivial calls
  unfold cachesimD1Doref prepareDref
  rw [hmode]
  exact Spec.bind (Keeps.modify fun _ hs => hs) fun _ => Spec.bind Keeps.pure fun _ =>
    .bind (.modify fun _ hs => hs) fun _ => keeps_resultRef hcall trivial .d1 m a size

/-- **The selector of `dip`.**  In every reachable state of this mode it is in its range.  Every
reference to a set of D1 from such a state, and the second one of a straddling access, moves it by
the results of the two shadow caches: up for a miss of LRU alone, down for one of BIP alone, and by
nothing else but from 15 to 14 if both miss. -/
theorem dip_selector (hmode : opts.cacheReplacementPolicy = .dipPolicy) {I1c D1c LLc : CacheT}
    {s : Sim L} (hs : Reachable opts I1c D1c LLc s) :
    s.engine.psel ≤ 15 ∧ s.setrefIsMiss = .dip
      ∧ ∀ e n tag miss e', e.psel ≤ 15 →
        s.setrefIsMiss.call opts (.main .d1) n tag e = .ok (miss, e') →
        ∃ lruMiss bipMiss e₁ e₂, lru.call opts (.shadow 0 .d1) n tag e = .ok (lruMiss, e₁)
          ∧ bip.call opts (.shadow 2 .d1) n tag e₁ = .ok (bipMiss, e₂)
          ∧ Moves lruMiss bipMiss e.psel e'.psel := by
  obtain ⟨loc, r, s₀, calls, hinit, hrun⟩ := hs
  obtain ⟨I1, D1, LL, D1s, -, -, -, -, -, rfl⟩ := initcaches_ok hinit
  have hptr : initialMissFn opts.cacheReplacementPolicy = .dip := by rw [hmode]; rfl
  obtain ⟨hpsel, hptr⟩ := (keepsDip_runCalls hmode calls).ok ⟨(by decide : 8 ≤ 15), hptr⟩ hrun
  refine ⟨hpsel, hptr, fun e n tag miss e' he h => ?_⟩
  obtain ⟨lruMiss, bipMiss, e₁, e₂, hlru, hbip, hmove⟩ := dip_d1_ok (hptr ▸ h)
  exact ⟨lruMiss, bipMiss, e₁, e₂, hlru, hbip, hmove ▸ moves_dipSelect lruMiss bipMiss he⟩

/-! ## At the upper end -/

/-- `dip` that never inserts at the front. -/
def dipOptions : Options := { twoRefWindow with cacheReplacementPolicy := .dipPolicy }

/-- Reads of three blocks in turn, of which a set of two ways keeps one under BIP and none under
LRU. -/
def threeBlocks : List (HelperCall Unit) :=
  ([16] ++ (List.replicate 7 [16, 32, 48]).flatten ++ [16]).map (.log0Ir1Dr ⟨0, 1, ()⟩ · 1)

/-- What a reference to D1 makes of the selector, if both shadow caches miss. -/
def pselAfterMisses (n : ℕ) (tag : UWord) (e : Engine) : Option ℕ :=
  match lru.call dipOptions (.shadow 0 .d1) n tag e,
    MissFn.dip.call dipOptions (.main .d1) n tag e with
  | .ok (true, e₁), .ok (_, e') =>
    match bip.call dipOptions (.shadow 2 .d1) n tag e₁ with
    | .ok (true, _) => some e'.psel
    | _ => none
  | _, _ => none

theorem dip_selector_two_ways : ∃ s : Sim Unit,
    Reachable dipOptions ⟨32, 2, 16⟩ ⟨32, 2, 16⟩ ⟨32, 2, 16⟩ s ∧ s.engine.psel ≤ 15 := by
  have hruns : reaches dipOptions ⟨32, 2, 16⟩ ⟨32, 2, 16⟩ ⟨32, 2, 16⟩ (fun _ => ⟨"a", "f", 1⟩)
      lcgStream threeBlocks (fun _ _ => True) = true := by decide +kernel
  obtain ⟨s₀, s, hinit, hrun, -⟩ := exists_of_reaches dipOptions hruns
  have hs : Reachable dipOptions ⟨32, 2, 16⟩ ⟨32, 2, 16⟩ ⟨32, 2, 16⟩ s :=
    ⟨_, _, s₀, threeBlocks, hinit, hrun⟩
  exact ⟨s, hs, (dip_selector rfl hs).1⟩

/-- **A miss of both shadow caches moves a selector that is at 15 down to 14.** -/
theorem psel_drops_at_max : ∃ s₀ s : Sim Unit,
    cachesimInitcaches dipOptions ⟨32, 2, 16⟩ ⟨32, 2, 16⟩ ⟨32, 2, 16⟩ (fun _ => ⟨"a", "f", 1⟩)
        lcgStream = .ok s₀
      ∧ runCalls dipOptions threeBlocks s₀ = .ok (⟨⟩, s)
      ∧ s.engine.psel = 15 ∧ pselAfterMisses 0 9 s.engine = some 14 :=
  exists_of_reaches dipOptions (by decide +kernel)

end Valgrind.Cachegrind
