import Valgrind.Cachegrind.Cache

/-!
# Cachegrind/BranchPred — `cg_branchpred.c`: the two branch predictors

Conditional branches are predicted by `2 ^ 14` saturating two-bit counters, indexed by seven bits
of global history and seven of the address; indirect ones by the last target seen at the address.
A counter never leaves `0 … 3`, so the closing assertion of `do_cond_branch_predict` holds
(`Predictor.TwoBit.cond`).
-/

namespace Valgrind.Cachegrind

/-- The static state of both predictors. -/
structure Predictor where
  shiftRegister : UWord
  /-- The counter array. -/
  counters : ℕ → ℕ
  /-- The target of the last indirect branch at each index. -/
  btac : ℕ → Addr

/-- Statics start out zero. -/
def Predictor.init : Predictor := ⟨0, fun _ => 0, fun _ => 0⟩

/-- The counter after a branch. -/
def trainCounter (taken : Bool) (n : ℕ) : ℕ :=
  if taken then (if n < 3 then n + 1 else n) else (if 0 < n then n - 1 else n)

/-- The index of a conditional branch: history bits above address bits. -/
def condIndex (loZeroBits : ℕ) (p : Predictor) (instrAddr : Addr) : ℕ :=
  ((p.shiftRegister &&& (2 ^ 7 - 1)) <<< 7) ||| ((instrAddr >>> loZeroBits) &&& (2 ^ 7 - 1))

/-- `do_cond_branch_predict`: whether the branch was mispredicted, and the trained predictor. -/
def doCondBranchPredict (loZeroBits : ℕ) (instrAddr : Addr) (takenW : ℤ) (p : Predictor) :
    Except Fault (Bool × Predictor) :=
  if 1 < takenW then .error .assertion
  else
    let indx := condIndex loZeroBits p instrAddr
    let predictedTaken := decide (2 ≤ p.counters indx)
    let actuallyTaken := decide (0 < takenW)
    let counter := trainCounter actuallyTaken (p.counters indx)
    if 3 < counter then .error .assertion
    else .ok (actuallyTaken != predictedTaken,
      { p with
        shiftRegister := ((p.shiftRegister <<< 1) % 2 ^ 64) ||| (if actuallyTaken then 1 else 0)
        counters := Function.update p.counters indx counter })

/-- `do_ind_branch_predict`. -/
def doIndBranchPredict (loZeroBits : ℕ) (instrAddr actual : Addr) (p : Predictor) :
    Bool × Predictor :=
  let indx := (instrAddr >>> loZeroBits) &&& (2 ^ 9 - 1)
  (decide (p.btac indx ≠ actual), { p with btac := Function.update p.btac indx actual })

/-- Every counter is a two-bit number. -/
def Predictor.TwoBit (p : Predictor) : Prop := ∀ i, p.counters i ≤ 3

/-- A trained two-bit counter is a two-bit counter. -/
theorem trainCounter_le (taken : Bool) {n : ℕ} (hn : n ≤ 3) : trainCounter taken n ≤ 3 := by
  unfold trainCounter
  split <;> split <;> omega

/-- **On two-bit counters only a taken flag above one fails an assertion**, and the counters stay
two-bit. -/
theorem Predictor.TwoBit.cond {p : Predictor} (h : p.TwoBit) (loZeroBits : ℕ) (instrAddr : Addr)
    {takenW : ℤ} (ht : takenW ≤ 1) :
    ∃ mispredict p', doCondBranchPredict loZeroBits instrAddr takenW p = .ok (mispredict, p')
      ∧ p'.TwoBit := by
  have hc := trainCounter_le (decide (0 < takenW)) (h (condIndex loZeroBits p instrAddr))
  unfold doCondBranchPredict
  rw [if_neg (not_lt.mpr ht)]
  simp only [if_neg (not_lt.mpr hc)]
  refine ⟨_, _, rfl, fun i => ?_⟩
  dsimp only
  rcases eq_or_ne i (condIndex loZeroBits p instrAddr) with rfl | hne
  · rw [Function.update_self]
    exact hc
  · rw [Function.update_of_ne hne]
    exact h i

/-- **An indirect branch is mispredicted iff the last at its index went elsewhere**; the latest is
first. -/
theorem ind_mispredict_iff (k : ℕ) (bs : List (Addr × Addr)) (a dst : Addr) :
    (doIndBranchPredict k a dst
      (bs.foldr (fun b p => (doIndBranchPredict k b.1 b.2 p).2) .init)).1 = true
    ↔ (bs.find? fun b => (a >>> k) &&& (2 ^ 9 - 1) = (b.1 >>> k) &&& (2 ^ 9 - 1)).elim 0 Prod.snd
      ≠ dst := by
  rw [doIndBranchPredict, decide_eq_true_iff]
  induction bs with
  | nil => rfl
  | cons b bs ih =>
    rw [List.foldr_cons, List.find?_cons]
    simp only [doIndBranchPredict, Function.update_apply]
    split_ifs with h
    · rw [decide_eq_true h]
      rfl
    · rwa [decide_eq_false h]

end Valgrind.Cachegrind
