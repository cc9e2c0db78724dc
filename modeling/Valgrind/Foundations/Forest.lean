import Mathlib.Tactic

/-!
# Foundations/Forest — parent links, roots, and the weight below a root

Every element has a parent or is a root.  An element **leads to** the root at the end of its
parents, if they end at all (`LeadsTo`, which is functional: `LeadsTo.unique`).  A root may be
linked under an element of another tree; what led to it leads to that tree's root from then on
(`leadsTo_link_iff`), and the weight below it moves there (`below_link_root`). -/

namespace Forest

open Function Finset

variable {ι : Type} {parent : ι → Option ι} {x y l r c j : ι}

/-- The parents of `x` end at the root `l`. -/
inductive LeadsTo (parent : ι → Option ι) : ι → ι → Prop
  | root {x : ι} (h : parent x = none) : LeadsTo parent x x
  | step {x y l : ι} (h : parent x = some y) (hl : LeadsTo parent y l) : LeadsTo parent x l

namespace LeadsTo

/-- At the end there is a root. -/
theorem isRoot (h : LeadsTo parent x l) : parent l = none := by
  induction h with
  | root h => exact h
  | step _ _ ih => exact ih

/-- **There is one end.** -/
theorem unique (h : LeadsTo parent x l) (h' : LeadsTo parent x r) : l = r := by
  induction h with
  | root h =>
    cases h' with
    | root _ => rfl
    | step hy _ => exact nomatch h.symm.trans hy
  | step hy _ ih =>
    cases h' with
    | root h => exact nomatch h.symm.trans hy
    | step hz hl =>
      obtain rfl := Option.some.inj (hy.symm.trans hz)
      exact ih hl

/-- What holds along the links holds from the end on. -/
theorem reflTransGen {R : ι → ι → Prop} (hR : ∀ x y, parent x = some y → R y x)
    (h : LeadsTo parent x l) : Relation.ReflTransGen R l x := by
  induction h with
  | root _ => exact .refl
  | step hy _ ih => exact ih.tail (hR _ _ hy)

end LeadsTo

/-! ## Weights -/

open Classical in
/-- The weight below `l`: that of all elements other than `l` that lead to it. -/
noncomputable def below (parent : ι → Option ι) (S : Finset ι) (w : ι → ℕ) (l : ι) : ℕ :=
  ∑ x ∈ S with parent x ≠ none ∧ LeadsTo parent x l, w x

variable {S : Finset ι} {w : ι → ℕ}

open Classical in
theorem below_le_sum (parent : ι → Option ι) (S : Finset ι) (w : ι → ℕ) (l : ι) :
    below parent S w l ≤ ∑ x ∈ S, w x :=
  sum_le_sum_of_subset (filter_subset _ _)

/-- Without links nothing lies below anything. -/
theorem below_eq_zero (h : ∀ x, parent x = none) : below parent S w l = 0 := by
  classical
  rw [below, filter_false_of_mem fun x _ hx => hx.1 (h x), sum_empty]

/-! ## Linking a root -/

section Link

variable [DecidableEq ι] (hj : parent j = none)
include hj

/-- Trees other than the one whose root is linked stay as they are. -/
theorem LeadsTo.link_of_ne (h : LeadsTo parent x l) (hl : l ≠ j) :
    LeadsTo (update parent j (some c)) x l := by
  induction h with
  | root h => exact .root (by rwa [update_of_ne hl])
  | step hy _ ih =>
    refine .step ?_ (ih hl)
    rwa [update_of_ne]
    rintro rfl
    exact nomatch hj.symm.trans hy

variable (hc : LeadsTo parent c r) (hr : r ≠ j)
include hc hr

/-- The linked tree has a new root. -/
theorem LeadsTo.link (h : LeadsTo parent x j) :
    LeadsTo (update parent j (some c)) x r := by
  generalize hl : j = l at h
  induction h with
  | root h =>
    subst hl
    exact .step (update_self ..) (hc.link_of_ne hj hr)
  | @step x y l hy _ ih =>
    refine .step ?_ (ih hl)
    rwa [update_of_ne]
    intro hxj
    rw [hxj, ← hl, hj] at hy
    exact nomatch hy

/-- **What leads where after a root has been linked.** -/
theorem leadsTo_link_iff :
    LeadsTo (update parent j (some c)) x l
      ↔ LeadsTo parent x l ∧ l ≠ j ∨ LeadsTo parent x j ∧ l = r := by
  constructor
  · intro h
    induction h with
    | @root x h =>
      have hne : x ≠ j := by
        rintro rfl
        rw [update_self] at h
        exact nomatch h
      rw [update_of_ne hne] at h
      exact .inl ⟨.root h, hne⟩
    | @step x y l hy _ ih =>
      by_cases hxj : x = j
      · subst hxj
        rw [update_self] at hy
        cases hy
        rcases ih with ⟨hl, -⟩ | ⟨hl, -⟩
        · exact .inr ⟨.root hj, hl.unique hc⟩
        · exact absurd (hc.unique hl) hr
      · rw [update_of_ne hxj] at hy
        exact ih.imp (fun ⟨hl, hne⟩ => ⟨.step hy hl, hne⟩) fun ⟨hl, heq⟩ => ⟨.step hy hl, heq⟩
  · rintro (⟨h, hne⟩ | ⟨h, rfl⟩)
    · exact h.link_of_ne hj hne
    · exact .link hj hc hr h

/-- **The linked tree's weight comes below the new root.** -/
theorem below_link_root (hjS : j ∈ S) :
    below (update parent j (some c)) S w r
      = below parent S w r + w j + below parent S w j := by
  classical
  have hset : (S.filter fun x => update parent j (some c) x ≠ none
        ∧ LeadsTo (update parent j (some c)) x r)
      = insert j ((S.filter fun x => parent x ≠ none ∧ LeadsTo parent x r)
        ∪ S.filter fun x => parent x ≠ none ∧ LeadsTo parent x j) := by
    ext x
    simp only [mem_filter, mem_insert, mem_union,
      leadsTo_link_iff hj hc hr, update_apply]
    by_cases hxj : x = j
    · subst hxj
      simp [hjS, LeadsTo.root hj]
    · simp only [hxj, if_false, false_or]
      tauto
  have hnot : j ∉ (S.filter fun x => parent x ≠ none ∧ LeadsTo parent x r)
      ∪ S.filter fun x => parent x ≠ none ∧ LeadsTo parent x j := by
    simp [hj]
  have hdisj : Disjoint (S.filter fun x => parent x ≠ none ∧ LeadsTo parent x r)
      (S.filter fun x => parent x ≠ none ∧ LeadsTo parent x j) := by
    rw [disjoint_filter]
    exact fun x _ h h' => hr (h.2.unique h'.2)
  rw [below, hset, sum_insert hnot, sum_union hdisj, below, below]
  omega

/-- …and no other root sees a change. -/
theorem below_link_of_ne (hlr : l ≠ r) (hlj : l ≠ j) :
    below (update parent j (some c)) S w l = below parent S w l := by
  classical
  rw [below, below]
  refine sum_congr (filter_congr fun x _ => ?_) fun _ _ => rfl
  rw [leadsTo_link_iff hj hc hr, update_apply]
  by_cases hxj : x = j
  · subst hxj
    have hroot : LeadsTo parent x x := .root hj
    simp only [if_true, hj, ne_eq, not_true_eq_false, false_and, iff_false]
    rintro ⟨-, ⟨h, -⟩ | ⟨-, h⟩⟩
    · exact hlj (h.unique hroot)
    · exact hlr h
  · simp only [hxj, if_false, hlr, and_false, or_false, hlj, ne_eq, not_false_eq_true, and_true]

end Link

open Classical in
/-- **Every element is counted once**: at its root, or below it. -/
theorem sum_roots_below (hS : ∀ x ∈ S, ∃ l ∈ S, LeadsTo parent x l) :
    ∑ l ∈ S with parent l = none, (w l + below parent S w l) = ∑ x ∈ S, w x := by
  choose! lead hlead hleads using hS
  have hmaps : ∀ x ∈ S.filter fun x => parent x ≠ none,
      lead x ∈ S.filter fun l => parent l = none := by
    intro x hx
    have hxS := (mem_filter.mp hx).1
    exact mem_filter.mpr ⟨hlead x hxS, (hleads x hxS).isRoot⟩
  have hbelow : ∀ l, below parent S w l
      = ∑ x ∈ S.filter (fun x => parent x ≠ none) with lead x = l, w x := by
    intro l
    rw [below, filter_filter]
    refine sum_congr (filter_congr fun x hx => ?_) fun _ _ => rfl
    refine and_congr_right fun _ => ⟨fun h => (hleads x hx).unique h, ?_⟩
    rintro rfl
    exact hleads x hx
  rw [sum_add_distrib]
  simp only [hbelow]
  rw [sum_fiberwise_of_maps_to hmaps, sum_filter_add_sum_filter_not]

end Forest
