import Valgrind.Core.XArray
import Valgrind.Foundations.SparseVector

/-!
# Helgrind/VTS — `helgrind/libhb_core.c`: vector timestamps

A vector timestamp is a sparse vector of counters: an array of the non-zero ones, in the order of
their threads.  `VTS__join` and `VTS__cmpLEQ` walk two such arrays with two cursors; what they meet
on the way is an **alignment** of the arrays, and the results are read off its members:

* `VTS.join_spec`, `VTS.tick_spec`, `VTS.subtract_spec` — the pointwise maximum, one tick, and the
  removal of threads;
* `VTS.cmpLEQ_spec` — zero, or the first thread at which the order fails;
* `VTS.cmpStructural_eq` — the order of the timestamps by length, then lexicographically.

An array that is written has room for `sizeTS` entries, and no result needs more.
-/

namespace Valgrind.Helgrind

open Alignment SparseVector Except Turn Subtype Nat
open List

/-! ## The arrays -/

/-- `ThrID_MAX_VALID`. -/
def thrIDMaxValid : ℕ := 2 ^ 18 - 1

/-- A thread identifier.  `Thr__new` issues them upwards from 1024. -/
abbrev ThrID := { n : ℕ // 1024 ≤ n ∧ n < thrIDMaxValid }

instance tym_ne : NeZero (2 ^ 46) := ⟨by decide⟩

/-- `ScalarTS`: the counter of a thread. -/
structure ScalarTS where
  thrid : ThrID
  tym : Fin (2 ^ 46)
deriving DecidableEq, Repr

/-- `VTS`: the entries in use, and how many there is room for. -/
structure VTS where
  id : ℕ
  sizeTS : ℕ
  ts : List ScalarTS
deriving DecidableEq, Repr

/-- `scalarts_limitations_fail_NORETURN`. -/
def scalartsLimitationsFail {α : Type} (dueToNThrs : Bool) : Except Abort α :=
  .error <| .exit 1 <|
    if dueToNThrs then
      "\nHelgrind: cannot continue, run aborted: too many threads.\n"
        ++ "Sorry.  Helgrind can only handle programs that create\n"
        ++ "261,119 or fewer threads over their entire lifetime.\n\n"
    else
      "\nHelgrind: cannot continue, run aborted: too many\n"
        ++ "synchronisation events.  Sorry. Helgrind can only handle\n"
        ++ "programs which perform 70,368,744,177,663 or fewer\n"
        ++ "inter-thread synchronisation events (locks, unlocks, etc).\n\n"

namespace VTS

/-- How many entries are in use. -/
def usedTS (vts : VTS) : ℕ := vts.ts.length

/-- The loop of `is_sane_VTS`. -/
def isSaneLoop : List ScalarTS → Bool
  | st1 :: st2 :: rest =>
    if st1.thrid ≥ st2.thrid then false
    else if st1.tym = 0 ∨ st2.tym = 0 then false
    else isSaneLoop (st2 :: rest)
  | _ => true

/-- `is_sane_VTS`. -/
def isSane (vts : VTS) : Bool :=
  if vts.usedTS > vts.sizeTS then false
  else match vts.ts with
    | [st1] => st1.tym ≠ 0
    | ts => isSaneLoop ts

/-- `VTS__new`. -/
def new (sizeTS : ℕ) : VTS where
  id := 0
  sizeTS := sizeTS
  ts := []

/-- Write the next entry; one past the end would hit the canary there. -/
def push (out : VTS) (st : ScalarTS) : Except Abort VTS :=
  if out.usedTS < out.sizeTS then .ok { out with ts := out.ts ++ [st] } else .error .assertion

/-- Copy entries one after the other. -/
def copy (out : VTS) (l : List ScalarTS) : Except Abort VTS := l.foldlM push out

/-- The loop of `VTS__indexAt_SLOW`. -/
def indexAtLoop (idx : ThrID) : List ScalarTS → ℕ
  | [] => 0
  | st :: ts => if st.thrid = idx then st.tym else indexAtLoop idx ts

/-- `VTS__indexAt_SLOW`. -/
def indexAt (vts : VTS) (idx : ThrID) : ℕ := indexAtLoop idx vts.ts

/-- `VTS__singleton`. -/
def singleton (out : VTS) (thr : ThrID) (tym : Fin (2 ^ 46)) : Except Abort VTS := do
  vgAssert (tym ≥ 1)
  vgAssert (out.usedTS = 0)
  vgAssert (out.sizeTS ≥ 1)
  out.push ⟨thr, tym⟩

/-! ## Subtraction -/

/-- `cmp__ThrID`. -/
def cmpThrID (id1 id2 : ThrID) : ℤ := if id1 < id2 then -1 else if id1 > id2 then 1 else 0

/-- The first loop of `VTS__subtract`: how many entries will remain. -/
def subtractCount (thridsToDel : List ThrID) : List ScalarTS → ℕ → Except Abort ℕ
  | [], nReq => .ok nReq
  | st :: ts, nReq => do
    if ← lookupXA cmpThrID thridsToDel st.thrid then subtractCount thridsToDel ts (nReq - 1)
    else subtractCount thridsToDel ts nReq

/-- The second loop of `VTS__subtract`: copy the ones that will remain. -/
def subtractCopy (thridsToDel : List ThrID) : List ScalarTS → VTS → Except Abort VTS
  | [], res => .ok res
  | st :: ts, res => do
    if ← lookupXA cmpThrID thridsToDel st.thrid then subtractCopy thridsToDel ts res
    else do
      let res ← res.push st
      subtractCopy thridsToDel ts res

/-- `VTS__subtract`. -/
def subtract (vts : VTS) (thridsToDel : List ThrID) : Except Abort VTS := do
  let nReq ← subtractCount thridsToDel vts.ts vts.usedTS
  vgAssert (nReq ≤ vts.usedTS)
  let res ← subtractCopy thridsToDel vts.ts (new nReq)
  vgAssert (res.usedTS = nReq)
  vgAssert (res.usedTS = res.sizeTS)
  return res

/-! ## Ticks -/

/-- The first loop of `VTS__tick`: copy all entries which precede `me`. -/
def tickBefore (me : ThrID) : List ScalarTS → VTS → Except Abort (List ScalarTS × VTS)
  | [], out => .ok ([], out)
  | here :: rest, out =>
    if here.thrid ≥ me then .ok (here :: rest, out)
    else do
      let out ← out.push here
      tickBefore me rest out

/-- The entry of `me`, and those after it; says whether `me` was there. -/
def tickFrom (me : ThrID) : List ScalarTS → VTS → Except Abort (Bool × VTS)
  | [], out => do return (false, ← out.push ⟨me, 1⟩)
  | here :: rest, out =>
    if me = here.thrid then
      if here.tym.val ≥ 2 ^ 46 - 2 then scalartsLimitationsFail false
      else do
        let out ← out.push ⟨here.thrid, here.tym + 1⟩
        return (true, ← out.copy rest)
    else do
      let out ← out.push ⟨me, 1⟩
      return (false, ← out.copy (here :: rest))

/-- `VTS__tick`. -/
def tick (out : VTS) (me : ThrID) (vts : VTS) : Except Abort VTS := do
  vgAssert (out.usedTS = 0)
  if vts.usedTS ≥ thrIDMaxValid then scalartsLimitationsFail true
  else do
    vgAssert (out.sizeTS ≥ 1 + vts.usedTS)
    vgAssert vts.isSane
    let (rest, out) ← tickBefore me vts.ts out
    let (found, out) ← tickFrom me rest out
    vgAssert out.isSane
    vgAssert (out.usedTS = vts.usedTS + if found then 0 else 1)
    vgAssert (out.usedTS ≤ out.sizeTS)
    return out

/-! ## Joins -/

/-- The end of the loop body of `VTS__join`: do something useful with a triple. -/
def joinTriple (out : VTS) (thrid : ThrID) (tyma tymb : Fin (2 ^ 46)) : Except Abort VTS :=
  let tymMax := if tyma > tymb then tyma else tymb
  if tymMax > 0 then out.push ⟨thrid, tymMax⟩ else .ok out

/-- The loop of `VTS__join`, on the entries not yet considered; counts the common threads. -/
def joinLoop : List ScalarTS → List ScalarTS → VTS → ℕ → Except Abort (VTS × ℕ)
  | [], [], out, ncommon => .ok (out, ncommon)
  | [], tmpb :: b, out, ncommon => do
    let out ← out.joinTriple tmpb.thrid 0 tmpb.tym
    joinLoop [] b out ncommon
  | tmpa :: a, [], out, ncommon => do
    let out ← out.joinTriple tmpa.thrid tmpa.tym 0
    joinLoop a [] out ncommon
  | tmpa :: a, tmpb :: b, out, ncommon =>
    if tmpa.thrid < tmpb.thrid then do
      let out ← out.joinTriple tmpa.thrid tmpa.tym 0
      joinLoop a (tmpb :: b) out ncommon
    else if tmpa.thrid > tmpb.thrid then do
      let out ← out.joinTriple tmpb.thrid 0 tmpb.tym
      joinLoop (tmpa :: a) b out ncommon
    else do
      vgAssert (tmpa.thrid = tmpb.thrid)
      let out ← out.joinTriple tmpa.thrid tmpa.tym tmpb.tym
      joinLoop a b out (ncommon + 1)
termination_by a b => a.length + b.length

/-- `VTS__join`. -/
def join (out a b : VTS) : Except Abort VTS := do
  vgAssert (out.usedTS = 0)
  if a.usedTS + b.usedTS ≥ thrIDMaxValid then scalartsLimitationsFail true
  else do
    vgAssert (out.sizeTS ≥ a.usedTS + b.usedTS)
    let (out, ncommon) ← joinLoop a.ts b.ts out 0
    vgAssert out.isSane
    vgAssert (out.usedTS ≤ out.sizeTS)
    vgAssert (out.usedTS = a.usedTS + b.usedTS - ncommon)
    return out

/-! ## Comparisons -/

/-- The loop of `VTS__cmpLEQ`. -/
def cmpLEQLoop : List ScalarTS → List ScalarTS → Except Abort ℕ
  | [], [] => .ok 0
  | [], tmpb :: b => cmpLEQTriple [] b tmpb.thrid 0 tmpb.tym
  | tmpa :: a, [] => cmpLEQTriple a [] tmpa.thrid tmpa.tym 0
  | tmpa :: a, tmpb :: b =>
    if tmpa.thrid < tmpb.thrid then cmpLEQTriple a (tmpb :: b) tmpa.thrid tmpa.tym 0
    else if tmpa.thrid > tmpb.thrid then cmpLEQTriple (tmpa :: a) b tmpb.thrid 0 tmpb.tym
    else do
      vgAssert (tmpa.thrid = tmpb.thrid)
      cmpLEQTriple a b tmpa.thrid tmpa.tym tmpb.tym
termination_by a b => (a.length + b.length, 0)
where
  /-- The end of the loop body: quit, or go on with the rest. -/
  cmpLEQTriple (a b : List ScalarTS) (thrid : ThrID) (tyma tymb : Fin (2 ^ 46)) :
      Except Abort ℕ :=
    if tyma > tymb then do
      vgAssert (thrid.val ≥ 1024)
      return thrid.val
    else cmpLEQLoop a b
  termination_by (a.length + b.length, 1)

/-- `VTS__cmpLEQ`. -/
def cmpLEQ (a b : VTS) : Except Abort ℕ := cmpLEQLoop a.ts b.ts

/-- The comparison of arrays of the same length in `VTS__cmp_structural`: by the first
difference. -/
def cmpStructuralLoop : List ScalarTS → List ScalarTS → Except Abort ℤ
  | [], [] => .ok 0
  | tmpa :: a, tmpb :: b =>
    if tmpa.tym = tmpb.tym ∧ tmpa.thrid = tmpb.thrid then cmpStructuralLoop a b
    else if tmpa.tym < tmpb.tym then .ok (-1)
    else if tmpa.tym > tmpb.tym then .ok 1
    else if tmpa.thrid < tmpb.thrid then .ok (-1)
    else if tmpa.thrid > tmpb.thrid then .ok 1
    else .error .assertion
  | _, _ => .error .assertion

/-- `VTS__cmp_structural`. -/
def cmpStructural (a b : VTS) : Except Abort ℤ :=
  if a.usedTS = b.usedTS then cmpStructuralLoop a.ts b.ts
  else if a.usedTS < b.usedTS then .ok (-1)
  else if a.usedTS > b.usedTS then .ok 1
  else .error .assertion

/-! ## Sane timestamps -/

/-- A sane timestamp: the threads increase, no counter is zero, and there is room. -/
structure Sane (vts : VTS) : Prop where
  increasing : Increasing ScalarTS.thrid vts.ts
  pos : ∀ st ∈ vts.ts, st.tym ≠ 0
  fits : vts.usedTS ≤ vts.sizeTS

open ScalarTS (thrid)

section Sane

variable {l : List ScalarTS} {t : ThrID}

theorem isSaneLoop_iff (st1 st2 : ScalarTS) (rest : List ScalarTS) :
    isSaneLoop (st1 :: st2 :: rest) = true ↔
      Increasing thrid (st1 :: st2 :: rest)
        ∧ ∀ st ∈ st1 :: st2 :: rest, st.tym ≠ 0 := by
  induction rest generalizing st1 st2 with
  | nil =>
    simp only [isSaneLoop, Increasing, pairwise_pair, forall_mem_cons]
    split_ifs with hge hzero
    · simp [not_lt.mpr hge]
    · simp only [false_iff]
      tauto
    · simpa [not_le.mp hge] using hzero
  | cons st3 rest ih =>
    rw [isSaneLoop]
    split_ifs with hge hzero
    · simp only [false_iff]
      exact fun h => not_lt.mpr hge (h.1.head_lt _ (mem_cons_self ..))
    · simp only [false_iff, forall_mem_cons]
      tauto
    · rw [ih, forall_mem_cons (a := st1)]
      constructor
      · rintro ⟨hinc, hpos⟩
        exact ⟨pairwise_cons.mpr ⟨hinc.lt_all (not_le.mp hge), hinc⟩,
          fun h => hzero (.inl h), hpos⟩
      · rintro ⟨hinc, -, hpos⟩
        exact ⟨hinc.tail, hpos⟩

/-- `is_sane_VTS` checks what it should. -/
theorem isSane_iff (vts : VTS) : vts.isSane = true ↔ vts.Sane := by
  obtain ⟨id, sizeTS, ts⟩ := vts
  rw [isSane]
  split_ifs with hsize
  · simp only [false_iff]
    exact fun h => not_lt.mpr h.fits hsize
  · have hfits := not_lt.mp hsize
    match ts with
    | [] => exact iff_of_true rfl ⟨.nil, nofun, hfits⟩
    | [st1] =>
      simp only [ne_eq, decide_eq_true_eq]
      exact ⟨fun h => ⟨pairwise_singleton _ _, forall_mem_singleton.mpr h, hfits⟩,
        fun h => h.pos st1 (mem_singleton_self _)⟩
    | st1 :: st2 :: rest =>
      rw [isSaneLoop_iff]
      exact ⟨fun h => ⟨h.1, h.2, hfits⟩, fun h => ⟨h.increasing, h.pos⟩⟩

theorem indexAtLoop_eq (t : ThrID) (l : List ScalarTS) :
    indexAtLoop t l = index thrid (·.tym.val) l t := by
  induction l with
  | nil => rfl
  | cons st l ih =>
    rw [indexAtLoop, ih, index, index, find?_cons]
    by_cases h : st.thrid = t <;> simp [h]

theorem indexAtLoop_eq_zero (h : ∀ st ∈ l, st.thrid ≠ t) : indexAtLoop t l = 0 :=
  (indexAtLoop_eq t l).trans (index_of_notMem h)

theorem indexAtLoop_of_mem (hl : Increasing thrid l) {st : ScalarTS} (hst : st ∈ l) :
    indexAtLoop st.thrid l = st.tym := (indexAtLoop_eq _ l).trans (index_of_mem hl hst)

/-- A counter is that of an entry, or there is none. -/
theorem indexAtLoop_cases (hl : Increasing thrid l) (t : ThrID) :
    (∃ st ∈ l, st.thrid = t ∧ indexAtLoop t l = st.tym)
      ∨ (∀ st ∈ l, st.thrid ≠ t) ∧ indexAtLoop t l = 0 := by
  rw [indexAtLoop_eq]
  exact index_cases hl _ t

theorem val_tym_pos (h : ∀ st ∈ l, st.tym ≠ 0) : ∀ st ∈ l, st.tym.val ≠ 0 := fun st hst =>
  Fin.val_ne_zero_iff.mpr (h st hst)

/-- **A sane timestamp is determined by its counters.** -/
theorem ts_eq_iff {a b : VTS} (ha : a.Sane) (hb : b.Sane) :
    a.ts = b.ts ↔ ∀ t, a.indexAt t = b.indexAt t := by
  refine ⟨fun h t => by rw [indexAt, indexAt, h], fun h => ?_⟩
  refine eq_of_index_eq ha.increasing hb.increasing (val_tym_pos ha.pos) (val_tym_pos hb.pos) ?_
    fun t => ?_
  · rintro ⟨thrid, tym⟩ ⟨thrid', tym'⟩ hthrid htym
    exact congrArg₂ ScalarTS.mk hthrid (Fin.ext htym)
  · rw [← indexAtLoop_eq, ← indexAtLoop_eq]
    exact h t

/-- There are fewer entries than valid threads. -/
theorem Sane.usedTS_lt {vts : VTS} (h : vts.Sane) : vts.usedTS < thrIDMaxValid := by
  have hnodup : (vts.ts.map fun st => st.thrid.val).Nodup :=
    pairwise_map.mpr (h.increasing.imp fun hlt => (coe_lt_coe.mpr hlt).ne)
  have hsub : (vts.ts.map fun st => st.thrid.val).toFinset ⊆ Finset.Ico 1024 thrIDMaxValid := by
    intro n hn
    obtain ⟨st, -, rfl⟩ := mem_map.mp (mem_toFinset.mp hn)
    exact Finset.mem_Ico.mpr st.thrid.2
  have hcard := Finset.card_le_card hsub
  rw [toFinset_card_of_nodup hnodup, length_map, card_Ico] at hcard
  exact hcard.trans_lt (by decide)

end Sane

/-! ## Writing entries -/

section Write

variable {out : VTS} {l : List ScalarTS}

/-- An array with more entries in use. -/
def extend (out : VTS) (l : List ScalarTS) : VTS := { out with ts := out.ts ++ l }

@[simp] theorem usedTS_extend : (out.extend l).usedTS = out.usedTS + l.length :=
  length_append

@[simp] theorem sizeTS_extend : (out.extend l).sizeTS = out.sizeTS := rfl

@[simp] theorem extend_nil : out.extend [] = out := by
  rw [extend, append_nil]

@[simp] theorem extend_extend (l' : List ScalarTS) :
    (out.extend l).extend l' = out.extend (l ++ l') := by
  rw [extend, extend, extend, append_assoc]

theorem usedTS_eq_zero (hout : out.ts = []) : out.usedTS = 0 := by
  rw [usedTS, hout, length_nil]

theorem ts_extend (hout : out.ts = []) : (out.extend l).ts = l := by
  rw [extend, hout, nil_append]

theorem sane_extend (hout : out.ts = []) (hinc : Increasing thrid l)
    (hpos : ∀ st ∈ l, st.tym ≠ 0) (hsize : l.length ≤ out.sizeTS) : (out.extend l).Sane where
  increasing := by rwa [ts_extend hout]
  pos := by rwa [ts_extend hout]
  fits := by rwa [usedTS, ts_extend hout]

theorem push_eq (st : ScalarTS) (h : out.usedTS < out.sizeTS) :
    out.push st = .ok (out.extend [st]) := if_pos h

theorem copy_eq (h : out.usedTS + l.length ≤ out.sizeTS) : out.copy l = .ok (out.extend l) := by
  induction l generalizing out with
  | nil => rw [extend_nil]; rfl
  | cons st l ih =>
    rw [length_cons] at h
    rw [copy, foldlM_cons, push_eq st (by omega), ok_bind]
    refine (ih (by simp; omega)).trans ?_
    rw [extend_extend, singleton_append]

end Write

/-! ## What the operations compute -/

/-- The sign of a comparison. -/
def signOf {α : Type} [LinearOrder α] (x y : α) : ℤ := if x < y then -1 else if y < x then 1 else 0

section SignOf

variable {α β : Type} [LinearOrder α] [LinearOrder β] {x y : α} {x' y' : β}

theorem signOf_eq_zero : signOf x y = 0 ↔ x = y := by
  rw [signOf]
  split_ifs with hlt hgt
  · exact iff_of_false (by decide) hlt.ne
  · exact iff_of_false (by decide) hgt.ne'
  · exact iff_of_true rfl (le_antisymm (not_lt.mp hgt) (not_lt.mp hlt))

theorem signOf_eq_neg_one : signOf x y = -1 ↔ x < y := by
  rw [signOf]
  split_ifs with hlt hgt
  · exact iff_of_true rfl hlt
  · exact iff_of_false (by decide) hlt
  · exact iff_of_false (by decide) hlt

theorem signOf_eq_one : signOf x y = 1 ↔ y < x := by
  rw [signOf]
  split_ifs with hlt hgt
  · exact iff_of_false (by decide) hlt.asymm
  · exact iff_of_true rfl hgt
  · exact iff_of_false (by decide) hgt

theorem signOf_congr (hlt : x < y ↔ x' < y') (hgt : y < x ↔ y' < x') :
    signOf x y = signOf x' y' := by
  rw [signOf, signOf, if_congr hlt rfl (if_congr hgt rfl rfl)]

end SignOf

section

variable {thridsToDel : List ThrID}

/-- `cmp__ThrID` is the sign. -/
theorem cmpThrID_eq_zero {s t : ThrID} : cmpThrID s t = 0 ↔ t = s :=
  signOf_eq_zero.trans eq_comm

theorem cmpThrID_nonneg {s t : ThrID} : 0 ≤ cmpThrID s t ↔ t ≤ s := by
  rw [cmpThrID]
  split_ifs with hlt hgt
  · exact iff_of_false (by decide) (not_le.mpr hlt)
  · exact iff_of_true (by decide) hgt.le
  · exact iff_of_true le_rfl (not_lt.mp hlt)

theorem cmpThrID_pos {s t : ThrID} : 0 < cmpThrID s t ↔ t < s := by
  rw [lt_iff_le_and_ne, lt_iff_le_and_ne, cmpThrID_nonneg, ne_comm, Ne, cmpThrID_eq_zero]

variable (hdel : thridsToDel.Pairwise (· < ·))

include hdel in
theorem lookupXA_cmpThrID (t : ThrID) :
    lookupXA cmpThrID thridsToDel t = .ok (decide (t ∈ thridsToDel)) := by
  rw [lookupXA_eq]
  · simp only [cmpThrID_eq_zero, exists_eq_right]
  · refine hdel.imp fun hlt => ?_
    rw [cmpThrID_nonneg, cmpThrID_nonneg, cmpThrID_pos, cmpThrID_pos]
    exact ⟨hlt.le.trans, hlt.trans⟩

/-- The entries that `VTS__subtract` keeps. -/
def kept (thridsToDel : List ThrID) (l : List ScalarTS) : List ScalarTS :=
  l.filter fun st => st.thrid ∉ thridsToDel

theorem kept_cons (st : ScalarTS) (l : List ScalarTS) : kept thridsToDel (st :: l)
      = if st.thrid ∈ thridsToDel then kept thridsToDel l else st :: kept thridsToDel l := by
  rw [kept, filter_cons]
  split_ifs <;> simp_all [kept]

include hdel

theorem subtractCount_eq (l : List ScalarTS) {nReq : ℕ} (h : l.length ≤ nReq) :
    subtractCount thridsToDel l nReq
      = .ok (nReq - l.length + (kept thridsToDel l).length) := by
  induction l generalizing nReq with
  | nil => rfl
  | cons st l ih =>
    rw [length_cons] at h
    rw [subtractCount, lookupXA_cmpThrID hdel, ok_bind, kept_cons]
    by_cases hmem : st.thrid ∈ thridsToDel
    · rw [decide_eq_true hmem, if_pos rfl, if_pos hmem, ih (by omega), length_cons]
      exact congrArg ok (by omega)
    · rw [decide_eq_false hmem, if_neg (by decide), if_neg hmem, ih (by omega)]
      simp only [length_cons]
      exact congrArg ok (by omega)

theorem subtractCopy_eq (l : List ScalarTS) {res : VTS}
    (h : res.usedTS + (kept thridsToDel l).length ≤ res.sizeTS) :
    subtractCopy thridsToDel l res = .ok (res.extend (kept thridsToDel l)) := by
  induction l generalizing res with
  | nil => rw [kept, filter_nil, extend_nil]; rfl
  | cons st l ih =>
    rw [kept_cons] at h ⊢
    rw [subtractCopy, lookupXA_cmpThrID hdel, ok_bind]
    by_cases hmem : st.thrid ∈ thridsToDel
    · rw [if_pos hmem] at h ⊢
      rw [decide_eq_true hmem, if_pos rfl, ih h]
    · rw [if_neg hmem, length_cons] at h
      rw [if_neg hmem, decide_eq_false hmem, if_neg (by decide), push_eq st (by omega), ok_bind,
        ih (by simp; omega), extend_extend, singleton_append]

/-- **`VTS__subtract` removes the given threads.** -/
theorem subtract_spec {vts : VTS} (hvts : vts.Sane) :
    ∃ res, vts.subtract thridsToDel = .ok res ∧ res.Sane ∧ res.usedTS = res.sizeTS
      ∧ ∀ t, res.indexAt t = if t ∈ thridsToDel then 0 else vts.indexAt t := by
  obtain ⟨l, hl⟩ : ∃ l, l = kept thridsToDel vts.ts := ⟨_, rfl⟩
  have hmem : ∀ st, st ∈ l ↔ st ∈ vts.ts ∧ st.thrid ∉ thridsToDel := by simp [hl, kept]
  have hlen : l.length ≤ vts.usedTS := hl ▸ length_filter_le _ _
  have hinc : Increasing thrid l := hl ▸ hvts.increasing.filter _
  have hcount : subtractCount thridsToDel vts.ts vts.usedTS = .ok l.length := by
    rw [hl, usedTS, subtractCount_eq hdel _ le_rfl, Nat.sub_self, zero_add]
  have hcopy : subtractCopy thridsToDel vts.ts (new l.length) = .ok ((new l.length).extend l) := by
    rw [hl, subtractCopy_eq hdel _ (by simp [new, usedTS])]
  have hused : ((new l.length).extend l).usedTS = l.length := by
    rw [usedTS_extend]
    exact zero_add _
  have hfull : ((new l.length).extend l).usedTS = ((new l.length).extend l).sizeTS := hused
  refine ⟨(new l.length).extend l, ?_,
    sane_extend rfl hinc (fun st hst => hvts.pos st ((hmem st).mp hst).1) le_rfl, hfull,
    fun t => ?_⟩
  · rw [subtract, hcount, ok_bind, vgAssert_bind hlen, hcopy, ok_bind, vgAssert_bind hused,
      vgAssert_bind hfull, pure_eq_ok]
  · change indexAtLoop t l = if t ∈ thridsToDel then 0 else indexAtLoop t vts.ts
    rcases indexAtLoop_cases hvts.increasing t with ⟨st, hst, rfl, heq⟩ | ⟨hnone, heq⟩
    · split_ifs with hdel
      · exact indexAtLoop_eq_zero fun st' hst' h => ((hmem st').mp hst').2 (h ▸ hdel)
      · rw [heq, indexAtLoop_of_mem hinc ((hmem st).mpr ⟨hst, hdel⟩)]
    · rw [heq, ite_self, indexAtLoop_eq_zero fun st hst => hnone st ((hmem st).mp hst).1]

end

section Tick

variable {me : ThrID} {out vts : VTS}

/-- The entries after a tick. -/
def ticked (me : ThrID) : List ScalarTS → List ScalarTS
  | [] => [⟨me, 1⟩]
  | here :: rest =>
    if here.thrid < me then here :: ticked me rest
    else if me = here.thrid then ⟨here.thrid, here.tym + 1⟩ :: rest
    else ⟨me, 1⟩ :: here :: rest

/-- The two parts of `VTS__tick` one after the other.  A counter that cannot grow ends the
process. -/
theorem tickBefore_bind (me : ThrID) (out : VTS) {l : List ScalarTS}
    (hl : Increasing thrid l) (hroom : out.usedTS + l.length + 1 ≤ out.sizeTS) :
    ∃ found, (tickBefore me l out >>= fun p => tickFrom me p.1 p.2)
        = (if 2 ^ 46 - 2 ≤ indexAtLoop me l then scalartsLimitationsFail false
          else .ok (found, out.extend (ticked me l)))
      ∧ (ticked me l).length = l.length + if found then 0 else 1 := by
  induction l generalizing out with
  | nil =>
    refine ⟨false, ?_, rfl⟩
    rw [tickBefore, ok_bind, tickFrom, push_eq _ (by simp at hroom; omega)]
    rfl
  | cons here rest ih =>
    rw [length_cons] at hroom
    rw [tickBefore, ticked, indexAtLoop]
    by_cases hlt : here.thrid < me
    · rw [if_neg (not_le.mpr hlt), if_pos hlt, if_neg hlt.ne, push_eq here (by omega), ok_bind]
      obtain ⟨found, hok, hlen⟩ := ih (out.extend [here]) hl.tail (by simp; omega)
      refine ⟨found, ?_, by rw [length_cons, length_cons, hlen]; omega⟩
      rw [hok, extend_extend, singleton_append]
    · rw [if_pos (not_lt.mp hlt), if_neg hlt, ok_bind]
      dsimp only
      rw [tickFrom]
      by_cases heq : me = here.thrid
      · refine ⟨true, ?_, by rw [if_pos heq]; rfl⟩
        rw [if_pos heq, if_pos heq, if_pos heq.symm, push_eq _ (by omega), ok_bind,
          copy_eq (by simp; omega), ok_bind, extend_extend, singleton_append, pure_eq_ok]
      · have hgt : me < here.thrid := lt_of_le_of_ne (not_lt.mp hlt) heq
        have hnone := indexAtLoop_eq_zero fun st hst => (hgt.trans (hl.head_lt st hst)).ne'
        refine ⟨false, ?_, by rw [if_neg heq]; rfl⟩
        rw [if_neg heq, if_neg heq, if_neg (Ne.symm heq), hnone, if_neg (by decide),
          push_eq _ (by omega), ok_bind, copy_eq (by simp; omega), ok_bind, extend_extend,
          singleton_append, pure_eq_ok]

theorem tym_add_one {tym : Fin (2 ^ 46)} (h : tym.val < 2 ^ 46 - 2) :
    (tym + 1).val = tym.val + 1 := by
  rw [Fin.val_add]
  exact mod_eq_of_lt (show tym.val + 1 < 2 ^ 46 by omega)

/-- What a tick makes of an entry that it meets. -/
def tickTurn : Turn ScalarTS → ScalarTS
  | .left st | .right st => st
  | .both here _ => ⟨here.thrid, here.tym + 1⟩

theorem thrid_tickTurn (x : Turn ScalarTS) : (tickTurn x).thrid = x.keyBy thrid := by
  cases x <;> rfl

/-- **A tick is the sum with the vector that is one at `me`.** -/
theorem ticked_eq (l : List ScalarTS) :
    ticked me l = (align thrid l [⟨me, 1⟩]).map tickTurn := by
  have hleft : ∀ l : List ScalarTS, (l.map left).map tickTurn = l := fun l =>
    map_map.trans (map_id' l)
  induction l with
  | nil => rw [align_nil_left]; rfl
  | cons here rest ih =>
    rw [ticked, align]
    by_cases hlt : here.thrid < me
    · rw [if_pos hlt, if_pos hlt, ih]
      rfl
    · rw [if_neg hlt, if_neg hlt]
      by_cases heq : me = here.thrid
      · rw [if_pos heq, if_neg heq.ge.not_gt, align_nil_right, map_cons, hleft]
        rfl
      · rw [if_neg heq, if_pos (lt_of_le_of_ne (not_lt.mp hlt) heq), align_nil_right,
          map_cons, hleft]
        rfl

section

variable {l : List ScalarTS} (hl : Increasing thrid l)
include hl

theorem increasing_ticked : Increasing thrid (ticked me l) := by
  rw [ticked_eq]
  exact increasing_map_align hl (pairwise_singleton _ _) fun x _ => thrid_tickTurn x

variable (hlim : indexAtLoop me l < 2 ^ 46 - 2)
include hlim

theorem tym_tickTurn {x : Turn ScalarTS} (hx : x ∈ align thrid l [⟨me, 1⟩]) :
    (tickTurn x).tym.val = valBy (·.tym.val) (· + ·) x := by
  cases x with
  | left st | right st => rfl
  | both here one =>
    obtain ⟨hhere, hone, hthrid⟩ := (mem_align hl (pairwise_singleton _ _) _).mp hx
    obtain rfl := mem_singleton.mp hone
    rw [← show here.thrid = me from hthrid, indexAtLoop_of_mem hl hhere] at hlim
    exact tym_add_one hlim

theorem ticked_pos (hpos : ∀ st ∈ l, st.tym ≠ 0) : ∀ st ∈ ticked me l, st.tym ≠ 0 := by
  rw [ticked_eq]
  intro st hst
  exact Fin.val_ne_zero_iff.mp (pos_map_align hl (pairwise_singleton _ _)
    (fun x => tym_tickTurn hl hlim) le_add_right (val_tym_pos hpos)
    (forall_mem_singleton.mpr one_ne_zero) st hst)

theorem indexAtLoop_ticked (t : ThrID) :
    indexAtLoop t (ticked me l) = indexAtLoop t l + if t = me then 1 else 0 := by
  have hone : index thrid (·.tym.val) [⟨me, 1⟩] t = if t = me then 1 else 0 := by
    rw [← indexAtLoop_eq, indexAtLoop, indexAtLoop]
    exact if_congr eq_comm rfl rfl
  rw [ticked_eq, indexAtLoop_eq, indexAtLoop_eq, ← hone]
  exact index_align hl (pairwise_singleton _ _) (fun x _ => thrid_tickTurn x)
    (fun x => tym_tickTurn hl hlim) add_zero zero_add t

end

variable (hvts : vts.Sane) (hout : out.ts = []) (hsize : 1 + vts.usedTS ≤ out.sizeTS)
include hvts hout hsize

/-- `VTS__tick` is the two parts, and the checks of what they make. -/
theorem tick_eq :
    tick out me vts = (tickBefore me vts.ts out >>= fun p => tickFrom me p.1 p.2) >>= fun p => do
      vgAssert p.2.isSane
      vgAssert (p.2.usedTS = vts.usedTS + if p.1 then 0 else 1)
      vgAssert (p.2.usedTS ≤ p.2.sizeTS)
      return p.2 := by
  rw [tick, vgAssert_bind (usedTS_eq_zero hout), if_neg (not_le.mpr hvts.usedTS_lt),
    vgAssert_bind hsize, vgAssert_bind ((isSane_iff vts).mpr hvts), bind_assoc]

/-- **`VTS__tick` adds one to the component of `me`.** -/
theorem tick_spec (hlim : vts.indexAt me < 2 ^ 46 - 2) :
    ∃ out', tick out me vts = .ok out' ∧ out'.Sane ∧ out'.sizeTS = out.sizeTS
      ∧ ∀ t, out'.indexAt t = vts.indexAt t + if t = me then 1 else 0 := by
  have hempty := usedTS_eq_zero hout
  obtain ⟨found, hok, hlen⟩ :=
    tickBefore_bind me out hvts.increasing (by rw [hempty, ← usedTS]; omega)
  rw [← indexAt, if_neg (not_le.mpr hlim)] at hok
  have hused : (out.extend (ticked me vts.ts)).usedTS = vts.usedTS + if found then 0 else 1 := by
    rw [usedTS_extend, hempty, hlen, zero_add]
    rfl
  have hroom : (ticked me vts.ts).length ≤ out.sizeTS := by
    rw [hlen, ← usedTS]
    split_ifs <;> omega
  have hsane : (out.extend (ticked me vts.ts)).Sane :=
    sane_extend hout (increasing_ticked hvts.increasing) (ticked_pos hvts.increasing hlim hvts.pos)
      hroom
  refine ⟨_, ?_, hsane, rfl, fun t => ?_⟩
  · rw [tick_eq hvts hout hsize, hok, ok_bind, vgAssert_bind ((isSane_iff _).mpr hsane),
      vgAssert_bind hused, vgAssert_bind hsane.fits, pure_eq_ok]
  · rw [indexAt, ts_extend hout, indexAtLoop_ticked hvts.increasing hlim]
    rfl

/-- The process ends if a counter cannot grow. -/
theorem tick_limit (hlim : 2 ^ 46 - 2 ≤ vts.indexAt me) :
    tick out me vts = scalartsLimitationsFail false := by
  obtain ⟨found, hfail, -⟩ := tickBefore_bind me out hvts.increasing
    (by rw [usedTS_eq_zero hout, ← usedTS]; omega)
  rw [tick_eq hvts hout hsize, hfail, ← indexAt, if_pos hlim]
  rfl

end Tick

section Join

variable {a b : List ScalarTS} {out : VTS}

/-- The entry that `VTS__join` makes of what it meets. -/
def joined : Turn ScalarTS → ScalarTS
  | .left st | .right st => st
  | .both sta stb => ⟨sta.thrid, max sta.tym stb.tym⟩

theorem thrid_joined (x : Turn ScalarTS) : (joined x).thrid = x.keyBy thrid := by
  cases x <;> rfl

theorem tym_joined (x : Turn ScalarTS) : (joined x).tym.val = valBy (·.tym.val) max x := by
  cases x with
  | left st | right st => rfl
  | both sta stb => exact Fin.coe_max _ _

/-- A triple with a counter that is not zero gives an entry. -/
theorem joinTriple_eq {thrid : ThrID} {tyma tymb : Fin (2 ^ 46)} (h : max tyma tymb ≠ 0)
    (hroom : out.usedTS < out.sizeTS) :
    out.joinTriple thrid tyma tymb = .ok (out.extend [⟨thrid, max tyma tymb⟩]) := by
  have hmax : (if tyma > tymb then tyma else tymb) = max tyma tymb := by
    split_ifs with hgt
    · exact (max_eq_left hgt.le).symm
    · exact (max_eq_right (not_lt.mp hgt)).symm
  rw [joinTriple, hmax, if_pos (Fin.pos_iff_ne_zero.mpr h), push_eq _ hroom]

/-- What the loop of `VTS__join` does at one turn. -/
def joinTurn (x : Turn ScalarTS) (rest : VTS → ℕ → Except Abort (VTS × ℕ)) (out : VTS)
    (ncommon : ℕ) : Except Abort (VTS × ℕ) :=
  match x with
  | .left st => do rest (← out.joinTriple st.thrid st.tym 0) ncommon
  | .right st => do rest (← out.joinTriple st.thrid 0 st.tym) ncommon
  | .both sta stb => do rest (← out.joinTriple sta.thrid sta.tym stb.tym) (ncommon + 1)

theorem joinTurn_eq (x : Turn ScalarTS) (rest : VTS → ℕ → Except Abort (VTS × ℕ)) (ncommon : ℕ)
    (h : (joined x).tym ≠ 0) (hroom : out.usedTS < out.sizeTS) :
    joinTurn x rest out ncommon
      = rest (out.extend [joined x]) (ncommon + if x.isBoth then 1 else 0) := by
  cases x with
  | left st =>
    have hmax : max st.tym 0 = st.tym := max_eq_left (Fin.zero_le _)
    rw [joinTurn, joinTriple_eq (hmax.symm ▸ h) hroom, hmax]
    rfl
  | right st =>
    have hmax : max 0 st.tym = st.tym := max_eq_right (Fin.zero_le _)
    rw [joinTurn, joinTriple_eq (hmax.symm ▸ h) hroom, hmax]
    rfl
  | both sta stb => rw [joinTurn, joinTriple_eq h hroom]; rfl

/-- **The loop of `VTS__join` writes what it meets.** -/
theorem joinLoop_eq (a b : List ScalarTS) (out : VTS) (ncommon : ℕ)
    (hpos : ∀ x ∈ align thrid a b, (joined x).tym ≠ 0)
    (hroom : out.usedTS + (align thrid a b).length ≤ out.sizeTS) :
    joinLoop a b out ncommon = .ok (out.extend ((align thrid a b).map joined),
      ncommon + (align thrid a b).countP Turn.isBoth) := by
  rw [walk_eq_foldr thrid joinLoop joinTurn (fun b bs => by funext; rw [joinLoop]; rfl)
    (fun a as => by funext; rw [joinLoop]; rfl)
    (fun a as b bs h => by funext; rw [joinLoop, if_pos h]; rfl)
    (fun a as b bs h => by funext; rw [joinLoop, if_neg h.asymm, if_pos h]; rfl)
    fun a as b bs h => by
      funext
      rw [joinLoop, if_neg h.not_lt, if_neg h.not_gt, vgAssert_bind h]
      rfl]
  generalize align thrid a b = l at hpos hroom ⊢
  induction l generalizing out ncommon with
  | nil => rw [foldr_nil, joinLoop, map_nil, extend_nil, countP_nil, add_zero]
  | cons x l ih =>
    obtain ⟨hx, hl⟩ := forall_mem_cons.mp hpos
    rw [length_cons] at hroom
    rw [foldr_cons, joinTurn_eq x _ _ hx (by omega), ih _ _ hl (by simp; omega), extend_extend,
      countP_cons, add_assoc, add_comm (ite _ _ _)]
    rfl

/-- The entries of a join. -/
def joinedAll (a b : List ScalarTS) : List ScalarTS := (align ScalarTS.thrid a b).map joined

section

variable (ha : Increasing thrid a) (hb : Increasing thrid b)
include ha hb

theorem increasing_joinedAll : Increasing thrid (joinedAll a b) :=
  increasing_map_align ha hb fun x _ => thrid_joined x

theorem joinedAll_pos (hapos : ∀ st ∈ a, st.tym ≠ 0) (hbpos : ∀ st ∈ b, st.tym ≠ 0) :
    ∀ st ∈ joinedAll a b, st.tym ≠ 0 := fun st hst =>
  Fin.val_ne_zero_iff.mp (pos_map_align ha hb (fun x _ => tym_joined x) le_max_left
    (val_tym_pos hapos) (val_tym_pos hbpos) st hst)

/-- **The counters of a join are the maxima.** -/
theorem indexAtLoop_joinedAll (t : ThrID) :
    indexAtLoop t (joinedAll a b) = max (indexAtLoop t a) (indexAtLoop t b) := by
  rw [indexAtLoop_eq, indexAtLoop_eq, indexAtLoop_eq]
  exact index_align ha hb (fun x _ => thrid_joined x) (fun x _ => tym_joined x) max_zero
    zero_max t

end

variable {a b : VTS}

/-- **`VTS__join` is the pointwise maximum.** -/
theorem join_spec (ha : a.Sane) (hb : b.Sane) (hout : out.ts = [])
    (hsize : a.usedTS + b.usedTS ≤ out.sizeTS) (hlim : a.usedTS + b.usedTS < thrIDMaxValid) :
    ∃ out', join out a b = .ok out' ∧ out'.Sane ∧ out'.sizeTS = out.sizeTS
      ∧ ∀ t, out'.indexAt t = max (a.indexAt t) (b.indexAt t) := by
  have hempty := usedTS_eq_zero hout
  have hlen : (joinedAll a.ts b.ts).length + (align thrid a.ts b.ts).countP isBoth
      = a.usedTS + b.usedTS := by
    rw [joinedAll, length_map]
    exact length_add_countP_align ..
  have hpos := joinedAll_pos ha.increasing hb.increasing ha.pos hb.pos
  have hok := joinLoop_eq a.ts b.ts out 0 (fun x hx => hpos _ (mem_map_of_mem hx))
    (by rw [hempty, ← length_map (f := joined), ← joinedAll]; omega)
  have hsane : (out.extend (joinedAll a.ts b.ts)).Sane :=
    sane_extend hout (increasing_joinedAll ha.increasing hb.increasing)
      hpos (by omega)
  have hused : (out.extend (joinedAll a.ts b.ts)).usedTS = a.usedTS + b.usedTS
      - (0 + (align thrid a.ts b.ts).countP isBoth) := by
    rw [usedTS_extend]
    omega
  refine ⟨_, ?_, hsane, rfl, fun t => ?_⟩
  · rw [join, vgAssert_bind hempty, if_neg (not_le.mpr hlim), vgAssert_bind hsize, hok, ok_bind]
    exact (vgAssert_bind ((isSane_iff _).mpr hsane) _).trans
      ((vgAssert_bind hsane.fits _).trans (vgAssert_bind hused _))
  · rw [indexAt, ts_extend hout]
    exact indexAtLoop_joinedAll ha.increasing hb.increasing t

/-- The process ends if there may be too many entries. -/
theorem join_limit (hout : out.ts = []) (hlim : thrIDMaxValid ≤ a.usedTS + b.usedTS) :
    join out a b = scalartsLimitationsFail true := by
  rw [join, vgAssert_bind (usedTS_eq_zero hout), if_pos hlim]

end Join

section CmpLEQ

/-- What is met contradicts the order. -/
def exceeds : Turn ScalarTS → Bool
  | .left sta => sta.tym > 0
  | .right stb => (0 : Fin (2 ^ 46)) > stb.tym
  | .both sta stb => sta.tym > stb.tym

theorem cmpLEQTriple_eq (a b : List ScalarTS) (thrid : ThrID) (tyma tymb : Fin (2 ^ 46)) :
    cmpLEQLoop.cmpLEQTriple a b thrid tyma tymb
      = if tyma > tymb then .ok thrid.val else cmpLEQLoop a b := by
  rw [cmpLEQLoop.cmpLEQTriple]
  split_ifs
  · rw [vgAssert_bind thrid.2.1, pure_eq_ok]
  · rfl

/-- **The loop of `VTS__cmpLEQ` finds the first thread that contradicts the order.** -/
theorem cmpLEQLoop_eq (a b : List ScalarTS) :
    cmpLEQLoop a b = .ok (((align thrid a b).find? exceeds).elim 0
      fun x => (x.keyBy thrid).val) := by
  rw [walk_eq_foldr thrid cmpLEQLoop
    (fun x rest => if exceeds x then .ok (x.keyBy thrid).val else rest)
    (fun b bs => by rw [cmpLEQLoop, cmpLEQTriple_eq]; simp [exceeds])
    (fun a as => by rw [cmpLEQLoop, cmpLEQTriple_eq]; simp [exceeds, keyBy])
    (fun a as b bs h => by rw [cmpLEQLoop, if_pos h, cmpLEQTriple_eq]; simp [exceeds, keyBy])
    (fun a as b bs h => by
      rw [cmpLEQLoop, if_neg h.asymm, if_pos h, cmpLEQTriple_eq]
      simp [exceeds])
    fun a as b bs h => by
      rw [cmpLEQLoop, if_neg h.not_lt, if_neg h.not_gt, vgAssert_bind h, cmpLEQTriple_eq]
      simp [exceeds, keyBy]]
  induction align thrid a b with
  | nil => rw [foldr_nil, cmpLEQLoop]; rfl
  | cons x l ih =>
    rw [foldr_cons, ih, find?_cons]
    cases exceeds x <;> rfl

variable {a b : VTS}

/-- A thread contradicts the order iff it is met so. -/
theorem exists_exceeds_iff (ha : a.Sane) (hb : b.Sane) (t : ThrID) :
    (∃ x ∈ align thrid a.ts b.ts, exceeds x = true ∧ x.keyBy thrid = t)
      ↔ b.indexAt t < a.indexAt t := by
  have hmem := mem_align ha.increasing hb.increasing
  rw [indexAt, indexAt]
  constructor
  · rintro ⟨x, hx, hexc, rfl⟩
    have hmeets := (hmem x).mp hx
    cases x with
    | left sta =>
      rw [keyBy, indexAtLoop_of_mem ha.increasing hmeets.1, indexAtLoop_eq_zero hmeets.2]
      simpa [exceeds] using hexc
    | right stb => simp [exceeds] at hexc
    | both sta stb =>
      obtain ⟨hsta, hstb, hthrid⟩ := hmeets
      rw [keyBy, indexAtLoop_of_mem ha.increasing hsta, hthrid,
        indexAtLoop_of_mem hb.increasing hstb]
      simpa [exceeds] using hexc
  · intro hlt
    rcases indexAtLoop_cases ha.increasing t with ⟨sta, hsta, rfl, heqa⟩ | ⟨-, heqa⟩
    · rcases indexAtLoop_cases hb.increasing sta.thrid with ⟨stb, hstb, hthrid, heqb⟩ | ⟨hnone, -⟩
      · rw [heqa, heqb] at hlt
        exact ⟨.both sta stb, (hmem _).mpr ⟨hsta, hstb, hthrid.symm⟩, decide_eq_true hlt, rfl⟩
      · exact ⟨.left sta, (hmem _).mpr ⟨hsta, hnone⟩,
          decide_eq_true (Fin.pos_iff_ne_zero.mpr (ha.pos sta hsta)), rfl⟩
    · omega

/-- **`VTS__cmpLEQ` returns zero iff the order holds**, and otherwise the first thread at which it
does not. -/
theorem cmpLEQ_spec (ha : a.Sane) (hb : b.Sane) :
    ∃ r, cmpLEQ a b = .ok r ∧ (r = 0 ↔ ∀ t, a.indexAt t ≤ b.indexAt t)
      ∧ ∀ t : ThrID, r = t.val ↔ IsLeast {t | b.indexAt t < a.indexAt t} t := by
  have hexc := exists_exceeds_iff ha hb
  have hpair := pairwise_align ha.increasing hb.increasing
  refine ⟨_, cmpLEQLoop_eq a.ts b.ts, ?_⟩
  cases hfind : (align thrid a.ts b.ts).find? exceeds with
  | none =>
    have hnone : ∀ t, a.indexAt t ≤ b.indexAt t := by
      refine fun t => not_lt.mp fun hlt => ?_
      obtain ⟨x, hx, hex, -⟩ := (hexc t).mpr hlt
      exact find?_eq_none.mp hfind x hx hex
    refine ⟨iff_of_true rfl hnone, fun t => iff_of_false (fun h => ?_) fun h => ?_⟩
    · have := t.2.1
      rw [← show 0 = t.val from h] at this
      omega
    · exact not_lt.mpr (hnone t) h.1
  | some x =>
    obtain ⟨hex, l₁, l₂, hl, hl₁⟩ := find?_eq_some_iff_append.mp hfind
    rw [hl] at hexc hpair
    have hleast : IsLeast {t | b.indexAt t < a.indexAt t} (x.keyBy thrid) := by
      refine ⟨(hexc _).mp ⟨x, by simp, hex, rfl⟩, fun t ht => ?_⟩
      obtain ⟨y, hy, hey, rfl⟩ := (hexc t).mpr ht
      rcases mem_append.mp hy with hy | hy
      · exact absurd hey (by simpa using hl₁ y hy)
      · rcases mem_cons.mp hy with rfl | hy
        · exact le_rfl
        · exact ((pairwise_cons.mp (pairwise_append.mp hpair).2.1).1 y hy).le
    refine ⟨iff_of_false (fun h => ?_) fun h => not_lt.mpr (h _) hleast.1, fun t => ?_⟩
    · have := (x.keyBy thrid).2.1
      rw [show (x.keyBy thrid).val = 0 from h] at this
      omega
    · refine ⟨fun h => ?_, fun h => congrArg val (hleast.unique h)⟩
      rw [← show x.keyBy thrid = t from Subtype.ext h]
      exact hleast

end CmpLEQ

/-- The entries in the form in which they are compared: by the counter, then by the thread. -/
def entries (l : List ScalarTS) : List (Fin (2 ^ 46) ×ₗ ThrID) :=
  l.map fun st => toLex (st.tym, st.thrid)

/-- The timestamps in the form in which they are compared: by the length, then by the entries. -/
def rank (vts : VTS) : ℕ ×ₗ List (Fin (2 ^ 46) ×ₗ ThrID) := toLex (vts.usedTS, entries vts.ts)

theorem cmpStructuralLoop_eq {a b : List ScalarTS} (hlen : a.length = b.length) :
    cmpStructuralLoop a b = .ok (signOf (entries a) (entries b)) := by
  induction a generalizing b with
  | nil =>
    obtain rfl := eq_nil_of_length_eq_zero hlen.symm
    rfl
  | cons tmpa a ih =>
    obtain ⟨tmpb, b, rfl⟩ := exists_cons_of_length_eq_add_one hlen.symm
    have hlt : ∀ (st st' : ScalarTS) (l l' : List ScalarTS),
        entries (st :: l) < entries (st' :: l') ↔
          (st.tym < st'.tym ∨ st.tym = st'.tym ∧ st.thrid < st'.thrid)
            ∨ (st.tym = st'.tym ∧ st.thrid = st'.thrid) ∧ entries l < entries l' := by
      intro st st' l l'
      rw [entries, entries, map_cons, map_cons, cons_lt_cons_iff, Prod.Lex.lt_iff]
      simp [entries]
    have hlen' : a.length = b.length := succ.inj hlen
    rw [cmpStructuralLoop]
    rcases lt_trichotomy tmpa.tym tmpb.tym with htym | htym | htym
    · rw [signOf_eq_neg_one.mpr ((hlt ..).mpr (.inl (.inl htym)))]
      simp [htym, htym.ne]
    · rcases lt_trichotomy tmpa.thrid tmpb.thrid with hthrid | hthrid | hthrid
      · rw [signOf_eq_neg_one.mpr ((hlt ..).mpr (.inl (.inr ⟨htym, hthrid⟩)))]
        simp [htym, hthrid, hthrid.ne]
      · rw [if_pos ⟨htym, hthrid⟩, ih hlen']
        exact congrArg ok (signOf_congr (by simp [hlt, htym, hthrid])
          (by simp [hlt, htym, hthrid]))
      · rw [signOf_eq_one.mpr ((hlt ..).mpr (.inl (.inr ⟨htym.symm, hthrid⟩)))]
        simp [htym, hthrid, hthrid.ne', hthrid.asymm]
    · rw [signOf_eq_one.mpr ((hlt ..).mpr (.inl (.inl htym)))]
      simp [htym, htym.ne', htym.asymm]

/-- **`VTS__cmp_structural` compares the ranks.** -/
theorem cmpStructural_eq (a b : VTS) : cmpStructural a b = .ok (signOf (rank a) (rank b)) := by
  have hlt : ∀ a b : VTS, rank a < rank b ↔
      a.usedTS < b.usedTS ∨ a.usedTS = b.usedTS ∧ entries a.ts < entries b.ts := fun a b => by
    rw [rank, rank, Prod.Lex.lt_iff]
    rfl
  rw [cmpStructural]
  rcases lt_trichotomy a.usedTS b.usedTS with hused | hused | hused
  · rw [signOf_eq_neg_one.mpr ((hlt ..).mpr (.inl hused))]
    simp [hused, hused.ne]
  · rw [if_pos hused, cmpStructuralLoop_eq hused]
    exact congrArg ok (signOf_congr (by simp [hlt, hused]) (by simp [hlt, hused]))
  · rw [signOf_eq_one.mpr ((hlt ..).mpr (.inl hused))]
    simp [hused, hused.ne', hused.asymm]

theorem rank_inj {a b : VTS} : rank a = rank b ↔ a.ts = b.ts := by
  constructor
  · intro h
    have hentries : entries a.ts = entries b.ts := congrArg (fun r => (ofLex r).2) h
    refine map_injective_iff.mpr (fun st st' hst => ?_) hentries
    obtain ⟨htym, hthrid⟩ := Prod.mk.inj (toLex.injective hst)
    cases st
    cases st'
    exact congrArg₂ ScalarTS.mk hthrid htym
  · intro h
    rw [rank, rank, usedTS, usedTS, h]

/-- **Vector timestamps are a lattice.**  On sane timestamps `VTS__join` is the pointwise maximum
and `VTS__tick` adds one to a component, as long as the limits of a `ScalarTS` are not reached;
`VTS__cmpLEQ` decides the pointwise order, `VTS__subtract` removes the threads listed, and
`VTS__cmp_structural` is a total order.  All results are sane, and none is larger than the room
made for it. -/
theorem vts_lattice (a b c : VTS) (ha : a.Sane) (hb : b.Sane) :
    (∀ out : VTS, out.ts = [] → a.usedTS + b.usedTS ≤ out.sizeTS →
        a.usedTS + b.usedTS < thrIDMaxValid →
        ∃ out', join out a b = .ok out' ∧ out'.Sane ∧ out'.sizeTS = out.sizeTS
          ∧ ∀ t, out'.indexAt t = max (a.indexAt t) (b.indexAt t))
      ∧ (∀ (out : VTS) (me : ThrID), out.ts = [] → 1 + a.usedTS ≤ out.sizeTS →
        a.indexAt me < 2 ^ 46 - 2 →
        ∃ out', tick out me a = .ok out' ∧ out'.Sane ∧ out'.sizeTS = out.sizeTS
          ∧ ∀ t, out'.indexAt t = a.indexAt t + if t = me then 1 else 0)
      ∧ (∃ r, cmpLEQ a b = .ok r ∧ (r = 0 ↔ ∀ t, a.indexAt t ≤ b.indexAt t)
        ∧ ∀ t : ThrID, r = t.val ↔ IsLeast {t | b.indexAt t < a.indexAt t} t)
      ∧ (∀ thridsToDel : List ThrID, thridsToDel.Pairwise (· < ·) →
        ∃ res, a.subtract thridsToDel = .ok res ∧ res.Sane ∧ res.usedTS = res.sizeTS
          ∧ ∀ t, res.indexAt t = if t ∈ thridsToDel then 0 else a.indexAt t)
      ∧ (∃ r, cmpStructural a b = .ok r ∧ (r = -1 ∨ r = 0 ∨ r = 1)
        ∧ (r = 0 ↔ ∀ t, a.indexAt t = b.indexAt t)
        ∧ cmpStructural b a = .ok (-r)
        ∧ (r = -1 → cmpStructural b c = .ok (-1) → cmpStructural a c = .ok (-1))) := by
  refine ⟨fun out hout hsize hlim => join_spec ha hb hout hsize hlim,
    fun out me hout hsize hlim => tick_spec ha hout hsize hlim, cmpLEQ_spec ha hb,
    fun del hdel => subtract_spec hdel ha, _, cmpStructural_eq a b, ?_, ?_, ?_, fun hab hbc => ?_⟩
  · rw [signOf_eq_neg_one, signOf_eq_zero, signOf_eq_one]
    exact lt_trichotomy _ _
  · rw [signOf_eq_zero, rank_inj, ts_eq_iff ha hb]
  · rw [cmpStructural_eq]
    refine congrArg ok ?_
    rcases lt_trichotomy (rank a) (rank b) with h | h | h
    · rw [signOf_eq_one.mpr h, signOf_eq_neg_one.mpr h, neg_neg]
    · rw [signOf_eq_zero.mpr h, signOf_eq_zero.mpr h.symm, neg_zero]
    · rw [signOf_eq_one.mpr h, signOf_eq_neg_one.mpr h]
  · rw [cmpStructural_eq] at hbc ⊢
    have hlt := (signOf_eq_neg_one.mp hab).trans (signOf_eq_neg_one.mp (ok.inj hbc))
    rw [signOf_eq_neg_one.mpr hlt]

/-- Two timestamps over two threads. -/
theorem vts_lattice_two_threads :
    ∃ out', join (new 2) ⟨0, 1, [⟨⟨1024, by decide⟩, 3⟩]⟩ ⟨0, 1, [⟨⟨1025, by decide⟩, 2⟩]⟩
        = .ok out'
      ∧ out'.Sane ∧ out'.sizeTS = 2 ∧ ∀ t, out'.indexAt t
        = max (indexAt ⟨0, 1, [⟨⟨1024, by decide⟩, 3⟩]⟩ t)
          (indexAt ⟨0, 1, [⟨⟨1025, by decide⟩, 2⟩]⟩ t) :=
  (vts_lattice _ _ (new 0) ((isSane_iff _).mp rfl) ((isSane_iff _).mp rfl)).1 (new 2) rfl
    (by decide) (by decide)

/-- One tick for each of the first `n` threads. -/
def oneEach (n : ℕ) (hn : 1024 + n ≤ thrIDMaxValid) : VTS where
  id := 0
  sizeTS := n
  ts := (List.finRange n).map fun i : Fin n =>
    ⟨⟨1024 + i, Nat.le_add_right _ _, (Nat.add_lt_add_left i.2 1024).trans_le hn⟩, 1⟩

theorem oneEach_usedTS (n : ℕ) (hn : 1024 + n ≤ thrIDMaxValid) : (oneEach n hn).usedTS = n := by
  rw [usedTS, oneEach, length_map, length_finRange]

theorem oneEach_sane (n : ℕ) (hn : 1024 + n ≤ thrIDMaxValid) : (oneEach n hn).Sane where
  increasing := by
    refine pairwise_map.mpr ((pairwise_lt_finRange n).imp fun hlt => ?_)
    exact mk_lt_mk.mpr (Nat.add_lt_add_left hlt 1024)
  pos := forall_mem_map.mpr fun _ _ => show (1 : Fin (2 ^ 46)) ≠ 0 by decide
  fits := (oneEach_usedTS n hn).le

/-- The process ends where a counter would not fit, and already where two timestamps together have
as many entries as there can be threads. -/
theorem limits_end_process :
    (∃ out vts : VTS, ∃ me, vts.Sane ∧ out.ts = [] ∧ 1 + vts.usedTS ≤ out.sizeTS
        ∧ tick out me vts = scalartsLimitationsFail false)
      ∧ ∃ out a b : VTS, a.Sane ∧ b.Sane ∧ out.ts = [] ∧ a.usedTS + b.usedTS ≤ out.sizeTS
        ∧ join out a b = scalartsLimitationsFail true := by
  constructor
  · have hsane : (⟨0, 1, [⟨⟨1024, by decide⟩, ⟨2 ^ 46 - 2, by decide⟩⟩]⟩ : VTS).Sane :=
      ⟨pairwise_singleton _ _, forall_mem_singleton.mpr (Fin.ne_of_val_ne (by decide)),
        le_rfl⟩
    exact ⟨new 2, _, ⟨1024, by decide⟩, hsane, rfl, le_rfl,
      tick_limit hsane rfl le_rfl (le_refl (2 ^ 46 - 2))⟩
  · have hn : 1024 + 131072 ≤ thrIDMaxValid := by decide
    have hused := oneEach_usedTS _ hn
    exact ⟨new 262144, oneEach 131072 hn, oneEach 131072 hn, oneEach_sane _ hn,
      oneEach_sane _ hn, rfl, (congrArg₂ (· + ·) hused hused).le,
      join_limit rfl (by rw [hused]; decide)⟩

end VTS

end Valgrind.Helgrind
