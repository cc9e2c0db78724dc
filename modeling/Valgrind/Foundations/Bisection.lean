import Mathlib.Tactic

/-!
# Foundations/Bisection — binary search

The search sees of each index only on which side of it the answer lies, and looking may fail.  If
the answer `t` is one of the first `n` indices, and looking at any of these tells its side, then the
search finds it: `bisect_eq_ok`.  Only indices below `n` are looked at, even if the search starts
with `hi = n`.  If none of the indices is the answer, the search says so: `bisect_eq_notFound`. -/

namespace Bisection

variable {ε : Type} {side : ℤ → Except ε Ordering}

/-- Search the indices from `lo` to `hi`, both included; an empty range ends the search. -/
def bisect (side : ℤ → Except ε Ordering) (notFound : ε) (lo hi : ℤ) : Except ε ℤ :=
  if _h : lo > hi then .error notFound
  else do
    let mid := (lo + hi) / 2
    match ← side mid with
    | .lt => bisect side notFound lo (mid - 1)
    | .gt => bisect side notFound (mid + 1) hi
    | .eq => return mid
termination_by (hi + 1 - lo).toNat
decreasing_by all_goals omega

/-- **The search finds the answer**, and looks at no index from `n` on. -/
theorem bisect_eq_ok {n t : ℤ} (notFound : ε)
    (hside : ∀ i, 0 ≤ i → i < n → side i = .ok (compare t i)) (htn : t < n) {lo hi : ℤ}
    (h0 : 0 ≤ lo) (hlo : lo ≤ t) (hhi : t ≤ hi) (hn : hi ≤ n) :
    bisect side notFound lo hi = .ok t := by
  -- The answer stays between `lo` and `hi`, so that the middle is below `n`.
  induction hd : (hi + 1 - lo).toNat using Nat.strong_induction_on generalizing lo hi with
  | _ d ih =>
    subst hd
    have hmid : side ((lo + hi) / 2) = .ok (compare t ((lo + hi) / 2)) :=
      hside _ (by omega) (by omega)
    rw [bisect, dif_neg (by omega)]
    dsimp only
    rw [hmid]
    rcases lt_trichotomy t ((lo + hi) / 2) with hlt | heq | hgt
    · rw [compare_lt_iff_lt.mpr hlt]
      exact ih _ (by omega) h0 hlo (by omega) (by omega) rfl
    · rw [compare_eq_iff_eq.mpr heq]
      exact congrArg Except.ok heq.symm
    · rw [compare_gt_iff_gt.mpr hgt]
      exact ih _ (by omega) (by omega) (by omega) hhi hn rfl

/-- **The search ends without an answer** if no index is one. -/
theorem bisect_eq_notFound (notFound : ε) {lo hi : ℤ}
    (hside : ∀ i, lo ≤ i → i ≤ hi → side i = .ok .lt ∨ side i = .ok .gt) :
    bisect side notFound lo hi = .error notFound := by
  induction hd : (hi + 1 - lo).toNat using Nat.strong_induction_on generalizing lo hi with
  | _ d ih =>
    subst hd
    rw [bisect]
    split_ifs with hempty
    · rfl
    dsimp only
    rcases hside ((lo + hi) / 2) (by omega) (by omega) with hlt | hgt
    · rw [hlt]
      exact ih _ (by omega) (fun i h1 h2 => hside i h1 (by omega)) rfl
    · rw [hgt]
      exact ih _ (by omega) (fun i h1 h2 => hside i (by omega) h2) rfl

end Bisection
