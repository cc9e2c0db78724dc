import Mathlib.Tactic

/-!
# Foundations/Refinement — runs of a component against runs of an abstract machine

A component is a step function that may fail; an abstract machine never does.  The component
**refines** the machine along a relation of their states if from related states every admitted
operation returns what the machine returns and leads to related states.  `Refines.run` carries this
from one operation to a run.
-/

namespace Refinement

open List Except

variable {σ τ ι ρ ε : Type} {s s'' : σ} {is : List ι} {a : τ} {i : ι} {rs : List ρ}
  {step : σ → ι → Except ε (ρ × σ)} {pre : σ → ι → Prop}

/-- Run a component on a list of operations and collect what they return. -/
def run (step : σ → ι → Except ε (ρ × σ)) : σ → List ι → Except ε (List ρ × σ)
  | s, [] => .ok ([], s)
  | s, i :: is => do
    let (r, s) ← step s i
    let (rs, s) ← run step s is
    return (r :: rs, s)

/-- Run an abstract machine on a list of operations. -/
def absRun (act : τ → ι → ρ × τ) : τ → List ι → List ρ × τ
  | a, [] => ([], a)
  | a, i :: is =>
    let (rs, b) := absRun act (act a i).2 is
    ((act a i).1 :: rs, b)

/-- Each operation of the list is admitted in the states it finds. -/
def Admits (step : σ → ι → Except ε (ρ × σ)) (act : τ → ι → ρ × τ) (pre : σ → τ → ι → Prop) :
    σ → τ → List ι → Prop
  | _, _, [] => True
  | s, a, i :: is =>
    pre s a i ∧ ∀ r s', step s i = .ok (r, s') → Admits step act pre s' (act a i).2 is

/-- The component refines the machine along `R`, as far as operations are admitted. -/
def Refines (step : σ → ι → Except ε (ρ × σ)) (act : τ → ι → ρ × τ) (pre : σ → τ → ι → Prop)
    (R : σ → τ → Prop) : Prop :=
  ∀ ⦃s a i⦄, R s a → pre s a i → ∃ s', step s i = .ok ((act a i).1, s') ∧ R s' (act a i).2

section Run

variable {step : σ → ι → Except ε (ρ × σ)} {act : τ → ι → ρ × τ} {pre : σ → τ → ι → Prop}
  {R : σ → τ → Prop}

/-- A condition on the operations alone is met if each of them meets it. -/
theorem admits_of_forall {P : ι → Prop} (h : ∀ i ∈ is, P i) :
    Admits step act (fun _ _ => P) s a is := by
  induction is generalizing s a with
  | nil => trivial
  | cons i is ih =>
    obtain ⟨hi, his⟩ := forall_mem_cons.mp h
    exact ⟨hi, fun _ _ _ => ih his⟩

theorem run_cons {s' : σ} {r : ρ} (h : step s i = .ok (r, s')) (h' : run step s' is = .ok (rs, s'')) :
    run step s (i :: is) = .ok (r :: rs, s'') := by
  rw [run, h]
  change (run step s' is >>= fun p => pure (r :: p.1, p.2)) = _
  rw [h']
  rfl

/-- A run of one operation and more returns only if both parts do. -/
theorem exists_of_run_cons (h : run step s (i :: is) = .ok (rs, s'')) :
    ∃ r rs' s', rs = r :: rs' ∧ step s i = .ok (r, s') ∧ run step s' is = .ok (rs', s'') := by
  rw [run] at h
  cases hs : step s i with
  | error e =>
    rw [hs] at h
    cases h
  | ok q =>
    rw [hs] at h
    change (run step q.2 is >>= fun p => pure (q.1 :: p.1, p.2)) = _ at h
    cases hr : run step q.2 is with
    | error e =>
      rw [hr] at h
      cases h
    | ok p =>
      rw [hr] at h
      cases h
      exact ⟨q.1, p.1, q.2, rfl, rfl, hr⟩

theorem run_cons_ok {r : ρ} (h : run step s (i :: is) = .ok (r :: rs, s'')) :
    ∃ s', step s i = .ok (r, s') ∧ run step s' is = .ok (rs, s'') := by
  obtain ⟨r', rs', s', heq, hstep, hrun⟩ := exists_of_run_cons h
  obtain ⟨rfl, rfl⟩ := List.cons.inj heq
  exact ⟨s', hstep, hrun⟩

/-- **Runs refine where steps do**: the component returns what the machine returns, to the end. -/
theorem Refines.run (h : Refines step act pre R) (hR : R s a) (hpre : Admits step act pre s a is) :
    ∃ s', run step s is = .ok ((absRun act a is).1, s') ∧ R s' (absRun act a is).2 := by
  induction is generalizing s a with
  | nil => exact ⟨s, rfl, hR⟩
  | cons i is ih =>
    obtain ⟨hi, his⟩ := hpre
    obtain ⟨s', hstep, hR'⟩ := h hR hi
    obtain ⟨s'', hrun, hR''⟩ := ih hR' (his _ _ hstep)
    exact ⟨s'', run_cons hstep hrun, hR''⟩

/-- **What is observed after every prefix decides which operations were good.**  If `R` implies the
observation `A`, good operations keep `R`, and bad ones break `A` at once, then along a run `A`
holds after every prefix iff all operations of the run are good. -/
theorem prefixes_iff {good : σ → τ → ι → Prop} {A : σ → τ → Prop} (hA : ∀ ⦃s a⦄, R s a → A s a)
    (hgood : ∀ ⦃s a i⦄, R s a → pre s a i → good s a i →
      ∃ s', step s i = .ok ((act a i).1, s') ∧ R s' (act a i).2)
    (hbad : ∀ ⦃s s' a i⦄, R s a → pre s a i → step s i = .ok ((act a i).1, s') →
      A s' (act a i).2 → good s a i)
    (hR : R s a) (hpre : Admits step act pre s a is) :
    (∀ p, p <+: is → ∃ s', run step s p = .ok ((absRun act a p).1, s') ∧ A s' (absRun act a p).2)
      ↔ Admits step act good s a is := by
  induction is generalizing s a with
  | nil =>
    refine ⟨fun _ => trivial, fun _ p hp => ?_⟩
    obtain rfl := prefix_nil.mp hp
    exact ⟨s, rfl, hA hR⟩
  | cons i is ih =>
    obtain ⟨hi, his⟩ := hpre
    constructor
    · intro hall
      obtain ⟨s', hrun, hA'⟩ := hall [i] (cons_prefix_cons.mpr ⟨rfl, nil_prefix⟩)
      obtain ⟨s', hstep, hrun⟩ := run_cons_ok hrun
      cases hrun
      have hg := hbad hR hi hstep hA'
      obtain ⟨s₁, hstep₁, hR₁⟩ := hgood hR hi hg
      obtain ⟨-, rfl⟩ := Prod.mk.inj (ok.inj (hstep₁.symm.trans hstep))
      refine ⟨hg, fun r s'' hs'' => ?_⟩
      obtain ⟨-, rfl⟩ := Prod.mk.inj (ok.inj (hstep.symm.trans hs''))
      refine (ih hR₁ (his _ _ hstep)).mp fun p hp => ?_
      obtain ⟨s₂, hrun₂, hA₂⟩ := hall (i :: p) (cons_prefix_cons.mpr ⟨rfl, hp⟩)
      obtain ⟨s₃, hstep₃, hrun₃⟩ := run_cons_ok hrun₂
      obtain ⟨-, rfl⟩ := Prod.mk.inj (ok.inj (hstep.symm.trans hstep₃))
      exact ⟨s₂, hrun₃, hA₂⟩
    · rintro ⟨hg, hadm⟩ p hp
      obtain ⟨s', hstep, hR'⟩ := hgood hR hi hg
      cases p with
      | nil => exact ⟨s, rfl, hA hR⟩
      | cons j p =>
        obtain ⟨rfl, hp'⟩ := cons_prefix_cons.mp hp
        obtain ⟨s'', hrun, hA''⟩ := (ih hR' (his _ _ hstep)).mpr (hadm _ _ hstep) p hp'
        exact ⟨s'', run_cons hstep hrun, hA''⟩

end Run

/-! ## Machines that may do one of several things -/

/-- Each operation of the list meets a condition in the state it finds. -/
def Meets (step : σ → ι → Except ε (ρ × σ)) (pre : σ → ι → Prop) : σ → List ι → Prop
  | _, [] => True
  | s, i :: is => pre s i ∧ ∀ r s', step s i = .ok (r, s') → Meets step pre s' is

/-- The operations, with what they returned, lead from one abstract state to another. -/
def Effects (eff : ι → ρ → τ → τ → Prop) : List ι → List ρ → τ → τ → Prop
  | [], [], a, b => b = a
  | i :: is, r :: rs, a, b => ∃ c, eff i r a c ∧ Effects eff is rs c b
  | _, _, _, _ => False

/-- **Runs have their effects where steps do**: if from related states an operation that meets its
condition returns, and has its effect on the abstract state, then so does a run. -/
theorem effects_run
    {eff : ι → ρ → τ → τ → Prop} {R : σ → τ → Prop}
    (h : ∀ ⦃s a i⦄, R s a → pre s i → ∃ r s' b, step s i = .ok (r, s') ∧ eff i r a b ∧ R s' b)
    (hR : R s a) (hpre : Meets step pre s is) :
    ∃ rs s' b, run step s is = .ok (rs, s') ∧ Effects eff is rs a b ∧ R s' b := by
  induction is generalizing s a with
  | nil => exact ⟨[], s, a, rfl, rfl, hR⟩
  | cons i is ih =>
    obtain ⟨hi, his⟩ := hpre
    obtain ⟨r, s', b, hstep, heff, hR'⟩ := h hR hi
    obtain ⟨rs, s'', c, hrun, heffs, hR''⟩ := ih hR' (his _ _ hstep)
    exact ⟨r :: rs, s'', c, run_cons hstep hrun, ⟨b, heff, heffs⟩, hR''⟩

/-- **What steps preserve, runs preserve.** -/
theorem invariant_run {I : σ → Prop}
    (h : ∀ s i, I s → pre s i → ∃ r s', step s i = .ok (r, s') ∧ I s') (hI : I s)
    (hpre : Meets step pre s is) : ∃ rs s', run step s is = .ok (rs, s') ∧ I s' := by
  induction is generalizing s with
  | nil => exact ⟨[], s, rfl, hI⟩
  | cons i is ih =>
    obtain ⟨hi, his⟩ := hpre
    obtain ⟨r, s', hstep, hI'⟩ := h s i hI hi
    obtain ⟨rs, s'', hrun, hI''⟩ := ih hI' (his _ _ hstep)
    exact ⟨r :: rs, s'', run_cons hstep hrun, hI''⟩

/-- **Counting up**: if the `n`-th operation leads from `I n` to `I (n + 1)`, a run up to `N` leads
to `I N`. -/
theorem run_range' {I : ℕ → σ → Prop} {op : ℕ → ι} {n k N : ℕ}
    (h : ∀ n s, I n s → n < N → ∃ r s', step s (op n) = .ok (r, s') ∧ I (n + 1) s') (hI : I n s)
    (hN : n + k = N) :
    ∃ rs s', run step s ((List.range' n k).map op) = .ok (rs, s') ∧ I N s' := by
  induction k generalizing n s with
  | zero => exact ⟨[], s, rfl, hN ▸ hI⟩
  | succ k ih =>
    obtain ⟨r, s', hstep, hI'⟩ := h n s hI (by omega)
    obtain ⟨rs, s'', hrun, hI''⟩ := ih hI' (by omega)
    exact ⟨r :: rs, s'', run_cons hstep hrun, hI''⟩

/-- **What steps preserve of a history, runs preserve**: `I` speaks of the operations so far, what
they returned, and the state now; and a run fails only as its steps may. -/
theorem history_run {E : ε → Prop} {I : List ι → List ρ → σ → Prop}
    (h : ∀ is rs s i, I is rs s → pre s i → (∃ e, E e ∧ step s i = .error e)
      ∨ ∃ r s', step s i = .ok (r, s') ∧ I (is ++ [i]) (rs ++ [r]) s')
    (js : List ι) (ss : List ρ) (hI : I js ss s) (hpre : Meets step pre s is) :
    (∃ e, E e ∧ run step s is = .error e)
      ∨ ∃ rs s', run step s is = .ok (rs, s') ∧ I (js ++ is) (ss ++ rs) s' := by
  induction is generalizing js ss s with
  | nil => exact .inr ⟨[], s, rfl, by rwa [append_nil, append_nil]⟩
  | cons i is ih =>
    obtain ⟨hi, his⟩ := hpre
    rcases h js ss s i hI hi with ⟨e, he, hstep⟩ | ⟨r, s', hstep, hI'⟩
    · exact .inl ⟨e, he, by rw [run, hstep]; rfl⟩
    · rcases ih _ _ hI' (his _ _ hstep) with ⟨e, he, hrun⟩ | ⟨rs, s'', hrun, hI''⟩
      · refine .inl ⟨e, he, ?_⟩
        rw [run, hstep]
        change (run step s' is >>= fun p => pure (r :: p.1, p.2)) = _
        rw [hrun]
        rfl
      · refine .inr ⟨r :: rs, s'', run_cons hstep hrun, ?_⟩
        rwa [append_assoc, append_assoc] at hI''

end Refinement
