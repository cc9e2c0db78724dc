import Valgrind.Core.LibcAssert

/-!
# Core/XArray — `coregrind/m_xarray.c`: growable arrays

An array is the list of the elements in use; the room behind them and its growth are left out.  An
index is a `Word`, and every access asserts that it is in range.  The lemmas describe an access by
what stands in front of the element and what stands behind it.
-/

namespace Valgrind

open List Int

variable {α : Type}

/-- `VG_(sizeXA)`. -/
def sizeXA (xa : List α) : ℤ := xa.length

/-- `VG_(indexXA)`, read through; a negative `n` is converted to a large `UWord`. -/
def indexXA (xa : List α) (n : ℤ) : Except Abort α :=
  if n < 0 then .error .assertion
  else match xa[n.toNat]? with
    | some e => .ok e
    | none => .error .assertion

/-- `VG_(indexXA)`, written through. -/
def updateXA (xa : List α) (n : ℤ) (f : α → α) : Except Abort (List α) := do
  let _ ← indexXA xa n
  return xa.modify n.toNat f

/-- `VG_(addToXA)`: the index of the new element, and the array. -/
def addToXA (xa : List α) (elem : α) : ℤ × List α := (sizeXA xa, xa ++ [elem])

/-- `VG_(removeIndexXA)`. -/
def removeIndexXA (xa : List α) (n : ℤ) : Except Abort (List α) :=
  if ¬ (0 ≤ n ∧ n < sizeXA xa) then .error .assertion
  else .ok (xa.eraseIdx n.toNat)

/-- `VG_(insertIndexXA)`. -/
def insertIndexXA (xa : List α) (n : ℤ) (elem : α) : Except Abort (List α) :=
  if ¬ (0 ≤ n ∧ n ≤ sizeXA xa) then .error .assertion
  else .ok (xa.insertIdx n.toNat elem)

/-- The loop of `VG_(lookupXA_UNSAFE)`, where the range of the matches is not asked for. -/
def lookupXALoop (cmpFn : α → α → ℤ) (xa : List α) (key : α) (lo hi : ℤ) : Except Abort Bool :=
  if _h : lo > hi then .ok false
  else do
    let mid := (lo + hi) / 2
    let cres := cmpFn key (← indexXA xa mid)
    if cres < 0 then lookupXALoop cmpFn xa key lo (mid - 1)
    else if cres > 0 then lookupXALoop cmpFn xa key (mid + 1) hi
    else do
      vgAssert (cmpFn key (← indexXA xa lo) ≥ 0)
      vgAssert (cmpFn key (← indexXA xa hi) ≤ 0)
      return true
termination_by (hi + 1 - lo).toNat
decreasing_by all_goals omega

/-- `VG_(lookupXA)` on a sorted array. -/
def lookupXA (cmpFn : α → α → ℤ) (xa : List α) (key : α) : Except Abort Bool :=
  lookupXALoop cmpFn xa key 0 (sizeXA xa - 1)

/-! ## Accesses, by what stands around the element -/

section Around

variable (l r : List α) (e : α)

theorem indexXA_append : indexXA (l ++ e :: r) l.length = .ok e := by
  simp [indexXA]

theorem updateXA_append (f : α → α) : updateXA (l ++ e :: r) l.length f = .ok (l ++ f e :: r) := by
  rw [updateXA, indexXA_append, ok_bind, toNat_natCast, modify_eq_take_drop,
    take_left, drop_left]
  rfl

theorem removeIndexXA_append : removeIndexXA (l ++ e :: r) l.length = .ok (l ++ r) := by
  rw [removeIndexXA, if_neg (by simp [sizeXA]), toNat_natCast,
    eraseIdx_append_of_length_le le_rfl]
  simp

theorem insertIndexXA_append : insertIndexXA (l ++ r) l.length e = .ok (l ++ e :: r) := by
  have hinsert : (l ++ r).insertIdx l.length e = l ++ e :: r := by
    induction l with
    | nil => rfl
    | cons a l ih => exact congrArg (a :: ·) ih
  rw [insertIndexXA, if_neg (by simp [sizeXA]), toNat_natCast, hinsert]

end Around

/-! ## Searching -/

section Lookup

variable {cmpFn : α → α → ℤ} {xa : List α} {key : α}

theorem indexXA_of_lt {n : ℕ} (h : n < xa.length) : indexXA xa n = .ok xa[n] := by
  rw [indexXA, if_neg (by omega), toNat_natCast, getElem?_eq_getElem h]

section

variable (hsorted : xa.Pairwise fun x y =>
  (0 ≤ cmpFn key y → 0 ≤ cmpFn key x) ∧ (0 < cmpFn key y → 0 < cmpFn key x))
include hsorted

/-- The matches are never left out of the range that is searched. -/
theorem lookupXALoop_eq {lo hi : ℤ} (hlo : 0 ≤ lo) (hhi : hi < sizeXA xa)
    (hin : ∀ n, (h : n < xa.length) → cmpFn key xa[n] = 0 → lo ≤ n ∧ (n : ℤ) ≤ hi) :
    lookupXALoop cmpFn xa key lo hi = .ok (decide (∃ x ∈ xa, cmpFn key x = 0)) := by
  have hmono : ∀ i j, (hi : i < xa.length) → (hj : j < xa.length) → i < j →
      (0 ≤ cmpFn key xa[j] → 0 ≤ cmpFn key xa[i]) ∧ (0 < cmpFn key xa[j] → 0 < cmpFn key xa[i]) :=
    fun i j hi hj hij => pairwise_iff_getElem.mp hsorted i j hi hj hij
  rw [sizeXA] at hhi
  induction hd : (hi + 1 - lo).toNat using Nat.strong_induction_on generalizing lo hi with
  | _ d ih =>
    subst hd
    rw [lookupXALoop]
    split_ifs with hempty
    · have hnone : ¬ ∃ x ∈ xa, cmpFn key x = 0 := by
        rintro ⟨x, hx, h0⟩
        obtain ⟨n, hn, rfl⟩ := getElem_of_mem hx
        have := hin n hn h0
        omega
      rw [decide_eq_false hnone]
    obtain ⟨m, hm⟩ : ∃ m : ℕ, (lo + hi) / 2 = m := ⟨((lo + hi) / 2).toNat, by omega⟩
    have hmlt : m < xa.length := by omega
    simp only [hm, indexXA_of_lt hmlt, ok_bind]
    split_ifs with hneg hpos
    · refine ih _ (by omega) hlo (by omega) (fun n hn h0 => ?_) rfl
      have hne : ¬ m ≤ n := fun hle => by
        rcases hle.eq_or_lt with rfl | hlt
        · omega
        · have := (hmono m n hmlt hn hlt).1 h0.ge
          omega
      exact ⟨(hin n hn h0).1, by omega⟩
    · refine ih _ (by omega) (by omega) hhi (fun n hn h0 => ?_) rfl
      have hne : ¬ n ≤ m := fun hle => by
        rcases hle.eq_or_lt with rfl | hlt
        · omega
        · have := (hmono n m hn hmlt hlt).2 hpos
          omega
      exact ⟨by omega, (hin n hn h0).2⟩
    · have hzero : cmpFn key xa[m] = 0 := by omega
      obtain ⟨i, rfl⟩ : ∃ i : ℕ, lo = i := ⟨lo.toNat, by omega⟩
      obtain ⟨j, rfl⟩ : ∃ j : ℕ, hi = j := ⟨hi.toNat, by omega⟩
      have hilt : i < xa.length := by omega
      have hjlt : j < xa.length := by omega
      have hge : cmpFn key xa[i] ≥ 0 := by
        rcases (show i ≤ m by omega).eq_or_lt with rfl | hlt
        · exact hzero.ge
        · exact (hmono i m hilt hmlt hlt).1 hzero.ge
      have hle : cmpFn key xa[j] ≤ 0 := by
        rcases (show m ≤ j by omega).eq_or_lt with rfl | hlt
        · exact hzero.le
        · exact not_lt.mp fun h => ((hmono m j hmlt hjlt hlt).2 h).ne' hzero
      rw [indexXA_of_lt hilt, indexXA_of_lt hjlt, ok_bind, vgAssert_bind hge, ok_bind,
        vgAssert_bind hle, decide_eq_true ⟨_, getElem_mem hmlt, hzero⟩, pure_eq_ok]

/-- **A sorted array is searched for a match**, and no assertion on the way fails. -/
theorem lookupXA_eq : lookupXA cmpFn xa key = .ok (decide (∃ x ∈ xa, cmpFn key x = 0)) :=
  lookupXALoop_eq hsorted le_rfl (by omega) fun n hn _ => by
    rw [sizeXA]
    omega

end

end Lookup

end Valgrind
