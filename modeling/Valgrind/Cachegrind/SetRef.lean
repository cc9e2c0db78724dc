import Valgrind.Cachegrind.Cache

/-!
# Cachegrind/SetRef — `cachesim_setref_is_miss_{lru,lip,random,fifo,bip}`

The five replacement functions work in place on one row of `tags`.  They share two loops: the
search for the tag, and the shuffle that moves ways `0 … i-1` down by one to free way `0`.

* lru, lip and bip *promote*: way `0` is tested first, a hit further down is moved to the front;
* random and fifo *stay*: a hit changes nothing.

On a miss they differ in where the tag goes.  `promotingRef_eq` and `stayingRef_eq` replace the
loops by membership and list surgery, once for all five.
-/

open List hiding set

namespace Valgrind.Cachegrind

variable {set : List UWord} {assoc n : ℕ} {tag : UWord} {throttle : ℚ} {r : RandomStream}
  {install : List UWord → RandomStream → List UWord × RandomStream}

/-! ## The two loops -/

/-- `for (…; i < …; i++) if (tag == set[i])`, `n` iterations from `i` on. -/
def findWay (set : List UWord) (tag : UWord) : ℕ → ℕ → Option ℕ
  | 0, _ => none
  | n + 1, i => if tag = set.getD i 0 then some i else findWay set tag n (i + 1)

/-- `for (j = i; j > 0; j--) set[j] = set[j - 1];` -/
def shuffleDown (set : List UWord) : ℕ → List UWord
  | 0 => set
  | j + 1 => shuffleDown (set.set (j + 1) (set.getD j 0)) j

/-- Shuffle the ways above `i` down and put the tag into way `0`. -/
def installMru (set : List UWord) (i : ℕ) (tag : UWord) : List UWord :=
  (shuffleDown set i).set 0 tag

@[simp] theorem length_shuffleDown : ∀ (i : ℕ) (set : List UWord),
    (shuffleDown set i).length = set.length
  | 0, _ => rfl
  | j + 1, set => by rw [shuffleDown, length_shuffleDown j, List.length_set]

/-- **The shuffle loop**, read way by way. -/
theorem getElem?_shuffleDown : ∀ (i : ℕ) (set : List UWord) (k : ℕ), i < set.length →
    (shuffleDown set i)[k]? = if k = 0 ∨ i < k then set[k]? else set[k - 1]?
  | 0, set, k, _ => by
      have hk : k = 0 ∨ 0 < k := Nat.eq_zero_or_pos k
      rw [shuffleDown, if_pos hk]
  | j + 1, set, k, hi => by
      have hj : j < set.length := by omega
      rw [shuffleDown, getElem?_shuffleDown j _ k (by simpa using hj), getElem?_set,
        getElem?_set, getD_eq_getElem?_getD, getElem?_eq_getElem hj]
      by_cases hk : k = j + 1
      · subst hk
        simp [hi, getElem?_eq_getElem hj]
      · have h1 : ¬ j + 1 = k := fun h => hk h.symm
        have h2 : ¬ j + 1 = k - 1 ∨ j < k := by omega
        by_cases hc : k = 0 ∨ j < k
        · rw [if_pos hc, if_neg h1, if_pos (by omega)]
        · rw [if_neg hc, if_neg (by omega), if_neg (by omega)]

/-- **Installing at the front** drops way `i` and shifts the ways above it. -/
theorem installMru_eq {i : ℕ} (hi : i < set.length) (tag : UWord) :
    installMru set i tag = tag :: set.eraseIdx i := by
  refine ext_getElem? fun k => ?_
  rw [installMru, getElem?_set, length_shuffleDown, getElem?_shuffleDown i set k hi]
  cases k with
  | zero => simp [show 0 < set.length by omega]
  | succ k =>
    rw [if_neg (by omega), getElem?_cons_succ, getElem?_eraseIdx]
    by_cases hk : k < i
    · rw [if_neg (by omega), if_pos hk, Nat.add_sub_cancel]
    · rw [if_pos (by omega), if_neg hk]

/-- Shuffling from the last way drops it. -/
theorem installMru_last (hlen : set.length = assoc) (hpos : 0 < assoc) (tag : UWord) :
    installMru set (assoc - 1) tag = tag :: set.dropLast := by
  subst hlen
  rw [installMru_eq (by omega), eraseIdx_length_sub_one]

/-- The search finds the first way holding the tag. -/
theorem findWay_eq (set : List UWord) (tag : UWord) : ∀ (n i : ℕ), i + n = set.length →
    findWay set tag n i = if tag ∈ set.drop i then some (i + (set.drop i).idxOf tag) else none
  | 0, i, h => by
      rw [findWay, List.drop_eq_nil_of_le (by omega)]
      simp
  | n + 1, i, h => by
      have hi : i < set.length := by omega
      have hget : set.getD i 0 = set[i] := by
        rw [getD_eq_getElem?_getD, getElem?_eq_getElem hi, Option.getD_some]
      rw [findWay, findWay_eq set tag n (i + 1) (by omega), hget, drop_eq_getElem_cons hi]
      by_cases ht : tag = set[i]
      · simp [← ht]
      · have hne : ¬ set[i] = tag := fun h => ht h.symm
        simp only [ht, if_false, mem_cons, false_or, idxOf_cons_ne _ hne]
        split
        · congr 1
          omega
        · rfl

/-! ## The two shapes of a reference -/

/-- The state a set function works on: the ways of the set and the random stream. -/
abbrev WaysFn := ℕ → List UWord → UWord → RandomStream → Bool × List UWord × RandomStream

/-- A reference that promotes on a hit: way `0` first, then the others. -/
def promotingRef (install : List UWord → RandomStream → List UWord × RandomStream) (assoc : ℕ)
    (set : List UWord) (tag : UWord) (r : RandomStream) : Bool × List UWord × RandomStream :=
  if tag = set.getD 0 0 then (false, set, r)
  else
    match findWay set tag (assoc - 1) 1 with
    | some i => (false, installMru set i tag, r)
    | none => (true, install set r)

/-- A reference that leaves the set alone on a hit. -/
def stayingRef (install : List UWord → RandomStream → List UWord × RandomStream) (assoc : ℕ)
    (set : List UWord) (tag : UWord) (r : RandomStream) : Bool × List UWord × RandomStream :=
  match findWay set tag assoc 0 with
  | some _ => (false, set, r)
  | none => (true, install set r)

/-- **A promoting reference**: a hit moves the tag to the front, a miss installs it. -/
theorem promotingRef_eq (hlen : set.length = assoc) (hpos : 0 < assoc) (tag : UWord)
    (r : RandomStream) :
    promotingRef install assoc set tag r
      = if tag ∈ set then (false, tag :: set.erase tag, r) else (true, install set r) := by
  obtain ⟨w, ws, rfl⟩ : ∃ w ws, set = w :: ws := by
    cases set with
    | nil => simp at hlen; omega
    | cons w ws => exact ⟨w, ws, rfl⟩
  simp only [length_cons] at hlen
  rw [promotingRef, findWay_eq _ _ _ _ (by simp; omega)]
  by_cases h0 : tag = w
  · subst h0
    simp
  · have hwt : ¬ w = tag := fun h => h0 h.symm
    by_cases hmem : tag ∈ ws
    · have hidx : ws.idxOf tag < ws.length := idxOf_lt_length_iff.mpr hmem
      have hmem' : tag ∈ w :: ws := mem_cons_of_mem _ hmem
      simp only [getD_cons_zero, h0, if_false, drop_one, tail_cons, hmem, if_true,
        hmem']
      rw [installMru_eq (by simp; omega), add_comm 1, eraseIdx_cons_succ,
        erase_cons_tail (by simpa using hwt), eraseIdx_idxOf_eq_erase]
    · have hmem' : tag ∉ w :: ws := by simp [h0, hmem]
      simp [h0, hmem]

/-- **A staying reference**: a hit changes nothing, a miss installs the tag. -/
theorem stayingRef_eq (hlen : set.length = assoc) (tag : UWord) (r : RandomStream) :
    stayingRef install assoc set tag r
      = if tag ∈ set then (false, set, r) else (true, install set r) := by
  rw [stayingRef, findWay_eq _ _ _ _ (by omega), drop_zero]
  by_cases hmem : tag ∈ set
  · simp [hmem]
  · simp [hmem]

/-! ## The five policies on the ways of a set -/

/-- The ways part of `cachesim_setref_is_miss_lru`. -/
def lruWays : WaysFn := fun assoc set tag r =>
  promotingRef (fun set r => (installMru set (assoc - 1) tag, r)) assoc set tag r

/-- The ways part of `cachesim_setref_is_miss_lip`. -/
def lipWays : WaysFn := fun assoc set tag r =>
  promotingRef (fun set r => (set.set (assoc - 1) tag, r)) assoc set tag r

/-- The ways part of `cachesim_setref_is_miss_random`. -/
def randomWays : WaysFn := fun assoc set tag r =>
  stayingRef (fun set r =>
    let (draw, r) := vgRandom r
    (set.set (draw % assoc) tag, r)) assoc set tag r

/-- The ways part of `cachesim_setref_is_miss_fifo`. -/
def fifoWays : WaysFn := fun assoc set tag r =>
  stayingRef (fun set r => (installMru set (assoc - 1) tag, r)) assoc set tag r

/-- The ways part of `cachesim_setref_is_miss_bip`: `throttle` is the chance, in percent of a draw,
of inserting at the front. -/
def bipWays (throttle : ℚ) : WaysFn := fun assoc set tag r =>
  promotingRef (fun set r =>
    if throttle = 1 then (installMru set (assoc - 1) tag, r)
    else if throttle = 0 then (set.set (assoc - 1) tag, r)
    else
      let (draw, r) := vgRandom r
      let prob : ℚ := (draw % 100 : ℕ) + 1
      if throttle * 100 ≤ prob then (set.set (assoc - 1) tag, r)
      else (installMru set (assoc - 1) tag, r)) assoc set tag r

/-- Whether a bip miss goes to the front. -/
def BipFront (throttle : ℚ) (draw : ℕ) : Prop :=
  throttle = 1 ∨ (throttle ≠ 0 ∧ ((draw % 100 : ℕ) : ℚ) + 1 < throttle * 100)

section

variable (hlen : set.length = assoc) (hpos : 0 < assoc) (tag : UWord) (r : RandomStream)
include hlen

/-- A random miss goes over the drawn way. -/
theorem randomWays_eq : randomWays assoc set tag r
      = if tag ∈ set then (false, set, r)
        else (true, set.set (r 0 % assoc) tag, fun n => r (n + 1)) := by
  rw [randomWays, stayingRef_eq hlen]
  rfl

include hpos

theorem lruWays_eq : lruWays assoc set tag r
      = if tag ∈ set then (false, tag :: set.erase tag, r) else (true, tag :: set.dropLast, r) := by
  rw [lruWays, promotingRef_eq hlen hpos, installMru_last hlen hpos]

theorem fifoWays_eq : fifoWays assoc set tag r
      = if tag ∈ set then (false, set, r) else (true, tag :: set.dropLast, r) := by
  rw [fifoWays, stayingRef_eq hlen, installMru_last hlen hpos]

theorem lipWays_eq : lipWays assoc set tag r
      = if tag ∈ set then (false, tag :: set.erase tag, r)
        else (true, set.set (assoc - 1) tag, r) := by
  rw [lipWays, promotingRef_eq hlen hpos]

variable {tag r}

theorem bipWays_of_front (htag : tag ∉ set) (h : BipFront throttle (r 0)) :
    (bipWays throttle assoc set tag r).2.1 = tag :: set.dropLast := by
  rw [bipWays, promotingRef_eq hlen hpos, if_neg htag, installMru_last hlen hpos]
  rcases h with rfl | ⟨h0, hlt⟩
  · rw [if_pos rfl]
  · by_cases h1 : throttle = 1
    · rw [if_pos h1]
    · rw [if_neg h1, if_neg h0]
      dsimp only [vgRandom]
      rw [if_neg (not_le.mpr hlt)]

theorem bipWays_of_not_front (htag : tag ∉ set) (h : ¬ BipFront throttle (r 0)) :
    (bipWays throttle assoc set tag r).2.1 = set.set (assoc - 1) tag := by
  obtain ⟨h1, h0⟩ := not_or.mp h
  rw [bipWays, promotingRef_eq hlen hpos, if_neg htag, if_neg h1]
  by_cases hz : throttle = 0
  · rw [if_pos hz]
  · rw [if_neg hz]
    dsimp only [vgRandom]
    rw [if_pos (not_lt.mp fun hlt => h0 ⟨hz, hlt⟩)]

end

/-! ## The five functions on a cache -/

/-- A set function applied at a row of `tags`: every function reads or writes way `0` of the row, so
the set number has to be in range and the cache to have a way. -/
def onRow (f : WaysFn) (c : CacheT2) (setNo : ℕ) (tag : UWord) (r : RandomStream) :
    Except Fault (Bool × CacheT2 × RandomStream) :=
  if (setNo : ℤ) < c.sets ∧ 1 ≤ c.assoc then
    let (miss, set, r) := f c.ways (c.row setNo) tag r
    .ok (miss, c.writeRow setNo set, r)
  else .error .setOutOfRange

/-- `cachesim_setref_is_miss_lru`. -/
def cachesimSetrefIsMissLru := onRow lruWays

/-- `cachesim_setref_is_miss_lip`. -/
def cachesimSetrefIsMissLip := onRow lipWays

/-- `cachesim_setref_is_miss_random`. -/
def cachesimSetrefIsMissRandom := onRow randomWays

/-- `cachesim_setref_is_miss_fifo`. -/
def cachesimSetrefIsMissFifo := onRow fifoWays

/-- `cachesim_setref_is_miss_bip`. -/
def cachesimSetrefIsMissBip (throttle : ℚ) := onRow (bipWays throttle)

/-- The functions that work on one set alone. -/
inductive Replacement
  | lru | lip | random | fifo | bip
  deriving DecidableEq, Repr

/-- The ways part of a replacement function. -/
def Replacement.waysFn (throttle : ℚ) : Replacement → WaysFn
  | .lru => lruWays
  | .lip => lipWays
  | .random => randomWays
  | .fifo => fifoWays
  | .bip => bipWays throttle

/-- The function a replacement names. -/
def Replacement.setref (throttle : ℚ) : Replacement →
    CacheT2 → ℕ → UWord → RandomStream → Except Fault (Bool × CacheT2 × RandomStream)
  | .lru => cachesimSetrefIsMissLru
  | .lip => cachesimSetrefIsMissLip
  | .random => cachesimSetrefIsMissRandom
  | .fifo => cachesimSetrefIsMissFifo
  | .bip => cachesimSetrefIsMissBip throttle

theorem setref_eq_onRow (throttle : ℚ) (p : Replacement) :
    p.setref throttle = onRow (p.waysFn throttle) := by cases p <;> rfl

theorem onRow_of_lt {f : WaysFn} {c : CacheT2} (h : (n : ℤ) < c.sets ∧ 1 ≤ c.assoc)
    (tag : UWord) (r : RandomStream) :
    onRow f c n tag r
      = .ok ((f c.ways (c.row n) tag r).1, c.writeRow n (f c.ways (c.row n) tag r).2.1,
          (f c.ways (c.row n) tag r).2.2) := by
  rw [onRow, if_pos h]

/-! ## What every policy does to a set -/

/-- Ways in which `tag` was installed into `set`: at the front with the last way dropped, or over
some way. -/
inductive Installed (tag : UWord) (set : List UWord) : List UWord → Prop
  | front : Installed tag set (tag :: set.dropLast)
  | atWay (i : ℕ) (h : i < set.length) : Installed tag set (set.set i tag)

/-- What a reference can do to a set of `assoc ≥ 1` ways: a hit reorders or keeps the ways, a miss
installs the tag. -/
inductive RefSpec (tag : UWord) (set : List UWord) : Bool → List UWord → Prop
  | promoted (h : tag ∈ set) : RefSpec tag set false (tag :: set.erase tag)
  | stayed (h : tag ∈ set) : RefSpec tag set false set
  | installed (h : tag ∉ set) {set' : List UWord} (hi : Installed tag set set') :
      RefSpec tag set true set'

theorem refSpec_promotingRef
    (hlen : set.length = assoc) (hpos : 0 < assoc)
    (hinst : ∀ r, Installed tag set (install set r).1) (r : RandomStream) :
    RefSpec tag set (promotingRef install assoc set tag r).1
      (promotingRef install assoc set tag r).2.1 := by
  rw [promotingRef_eq hlen hpos]
  by_cases h : tag ∈ set
  · rw [if_pos h]
    exact .promoted h
  · rw [if_neg h]
    exact .installed h (hinst r)

theorem refSpec_stayingRef
    (hlen : set.length = assoc) (hinst : ∀ r, Installed tag set (install set r).1)
    (r : RandomStream) : RefSpec tag set (stayingRef install assoc set tag r).1
      (stayingRef install assoc set tag r).2.1 := by
  rw [stayingRef_eq hlen]
  by_cases h : tag ∈ set
  · rw [if_pos h]
    exact .stayed h
  · rw [if_neg h]
    exact .installed h (hinst r)

/-- **One reference, whatever the policy, throttle and draws.** -/
theorem refSpec_waysFn (throttle : ℚ) (p : Replacement) (hlen : set.length = assoc)
    (hpos : 0 < assoc) (tag : UWord) (r : RandomStream) :
    RefSpec tag set (p.waysFn throttle assoc set tag r).1
      (p.waysFn throttle assoc set tag r).2.1 := by
  have hmru : Installed tag set (installMru set (assoc - 1) tag) :=
    installMru_last hlen hpos tag ▸ .front
  have hover : Installed tag set (set.set (assoc - 1) tag) := .atWay _ (by omega)
  cases p with
  | lru => exact refSpec_promotingRef hlen hpos (fun _ => hmru) r
  | lip => exact refSpec_promotingRef hlen hpos (fun _ => hover) r
  | random =>
    refine refSpec_stayingRef hlen (fun r => ?_) r
    exact .atWay _ (by rw [hlen]; exact Nat.mod_lt _ hpos)
  | fifo => exact refSpec_stayingRef hlen (fun _ => hmru) r
  | bip =>
    refine refSpec_promotingRef hlen hpos (fun r => ?_) r
    dsimp only
    split
    · exact hmru
    split
    · exact hover
    split
    · exact hover
    · exact hmru

/-- A reference keeps the number of ways. -/
theorem RefSpec.length_eq {set' : List UWord} {miss : Bool} (h : RefSpec tag set miss set')
    (hpos : 0 < set.length) : set'.length = set.length := by
  cases h with
  | promoted h =>
    rw [length_cons, length_erase_of_mem h]
    omega
  | stayed _ => rfl
  | installed _ hi =>
    cases hi with
    | front => rw [length_cons, length_dropLast]; omega
    | atWay i _ => rw [length_set]

/-- **A set function on a cache**: the row changes as `RefSpec` says, the rest stays. -/
theorem setref_ok (throttle : ℚ) (p : Replacement) {c : CacheT2} (hassoc : 1 ≤ c.assoc)
    (h : (n : ℤ) < c.sets) (tag : UWord) (r : RandomStream) :
    ∃ miss set r', p.setref throttle c n tag r = .ok (miss, c.writeRow n set, r')
      ∧ RefSpec tag (c.row n) miss set ∧ set.length = c.ways := by
  obtain ⟨hlen, hpos⟩ := c.row_of_lt ⟨h, hassoc⟩
  have hspec := refSpec_waysFn throttle p hlen hpos tag r
  refine ⟨_, _, (p.waysFn throttle c.ways (c.row n) tag r).2.2, ?_, hspec, ?_⟩
  · rw [setref_eq_onRow, onRow_of_lt ⟨h, hassoc⟩]
  · rw [hspec.length_eq (by omega), hlen]

end Valgrind.Cachegrind
