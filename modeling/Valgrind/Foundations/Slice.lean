import Mathlib.Tactic

/-!
# Foundations/Slice — a row of a flat array

A table of `n`-wide rows kept in one flat list: `slice` reads a row, `overlay` writes one back in
place.  Writing a row and reading it again gives the row (`slice_overlay_self`); reading a row that
does not meet the written one gives what was there (`slice_overlay_of_disjoint`).
-/

namespace Slice

open List

variable {α : Type*} {l s : List α}

/-- The `n` entries from `off` on. -/
def slice (l : List α) (off n : ℕ) : List α := (l.drop off).take n

/-- The list with the entries from `off` on replaced by `s`, in place. -/
def overlay (l : List α) (off : ℕ) (s : List α) : List α :=
  l.mapIdx fun k x => if off ≤ k then s.getD (k - off) x else x

@[simp] theorem length_overlay (l : List α) (off : ℕ) (s : List α) :
    (overlay l off s).length = l.length := by simp [overlay]

theorem length_slice {off n : ℕ} (h : off + n ≤ l.length) : (slice l off n).length = n := by
  rw [slice, length_take, length_drop]
  omega

theorem getElem?_slice (l : List α) (off n k : ℕ) :
    (slice l off n)[k]? = if k < n then l[off + k]? else none := by
  rw [slice, getElem?_take, getElem?_drop]

theorem getElem?_overlay (l : List α) (off : ℕ) (s : List α) (k : ℕ) :
    (overlay l off s)[k]? = l[k]?.map fun x => if off ≤ k then s.getD (k - off) x else x := by
  rw [overlay, getElem?_mapIdx]

/-- A slice of a constant array is constant. -/
theorem slice_replicate {a : α} {off n m : ℕ} (h : off + n ≤ m) :
    slice (List.replicate m a) off n = List.replicate n a := by
  rw [slice, drop_replicate, take_replicate]
  congr 1
  omega

/-- **A written row reads back.** -/
theorem slice_overlay_self {off n : ℕ} (hs : s.length = n)
    (h : off + n ≤ l.length) : slice (overlay l off s) off n = s := by
  refine ext_getElem? fun k => ?_
  rw [getElem?_slice, getElem?_overlay]
  by_cases hk : k < n
  · have hkl : off + k < l.length := by omega
    have hks : k < s.length := by omega
    simp [hk, getElem?_eq_getElem hkl, getElem?_eq_getElem hks]
  · rw [if_neg hk, getElem?_eq_none (by omega)]

/-- **…and the other rows are untouched.** -/
theorem slice_overlay_of_disjoint {off off' n : ℕ} (hs : s.length = n)
    (h : off' + n ≤ off ∨ off + n ≤ off') : slice (overlay l off s) off' n = slice l off' n := by
  refine ext_getElem? fun k => ?_
  rw [getElem?_slice, getElem?_slice, getElem?_overlay]
  by_cases hk : k < n
  · rw [if_pos hk, if_pos hk]
    cases hl : l[off' + k]? with
    | none => rfl
    | some x =>
      by_cases hle : off ≤ off' + k
      · have hnone : s[off' + k - off]? = none := getElem?_eq_none (by omega)
        simp [hle, hnone]
      · simp [hle]
  · rw [if_neg hk, if_neg hk]

end Slice
