import Valgrind.Core.LibcAssert
import Valgrind.Foundations.Refinement

/-!
# Core/SparseWA — `coregrind/m_sparsewa.c`: sparse arrays of words

A sparse array is a trie over the eight bytes of a key, the most significant first.  A node of level
`n + 1` has 256 children of level `n`; a node of level `0` has 256 words and a bitmap that says
which of them are in use.  The level is part of the type of a node, in place of the `magic` field.

Every node counts its children or words in use, and a node without any is freed: `Live`.  Along a
run of additions and deletions the trie is the partial map from keys to words that these build up.
-/

namespace Valgrind

open Function Option Nat Finset BitVec

namespace SparseWA

/-! ## The code: bitmaps -/

/-- `UChar inUse[256/8]`. -/
abbrev Bitarray := Fin 32 → BitVec 8

/-- `ix >> 3`. -/
def bix (ix : Fin 256) : Fin 32 := ⟨ix / 8, by omega⟩

/-- `ix & 7`. -/
def off (ix : Fin 256) : ℕ := ix % 8

/-- `swa_bitarray_read`. -/
def bitarrayRead (arr : Bitarray) (ix : Fin 256) : UWord :=
  ((arr (bix ix) >>> off ix) &&& 1#8).toNat

/-- `swa_bitarray_read_then_set`. -/
def bitarrayReadThenSet (arr : Bitarray) (ix : Fin 256) : UWord × Bitarray :=
  let old := arr (bix ix)
  let nyu := old ||| (1#8 <<< off ix)
  (((old >>> off ix) &&& 1#8).toNat, update arr (bix ix) nyu)

/-- `swa_bitarray_read_then_clear`. -/
def bitarrayReadThenClear (arr : Bitarray) (ix : Fin 256) : UWord × Bitarray :=
  let old := arr (bix ix)
  let nyu := old &&& ~~~(1#8 <<< off ix)
  (((old >>> off ix) &&& 1#8).toNat, update arr (bix ix) nyu)

/-! ## The code: nodes -/

/-- `Level0`. -/
structure Level0 where
  words : Fin 256 → UWord
  nInUse : ℤ
  inUse : Bitarray

/-- `LevelN`, with children of a type. -/
structure LevelN (ν : Type) where
  child : Fin 256 → Option ν
  nInUse : ℤ
  level : ℤ

/-- The nodes of a level. -/
abbrev Node : ℕ → Type
  | 0 => Level0
  | n + 1 => LevelN (Node n)

/-- `swa_new_Level0`, `swa_new_LevelN`. -/
def newNode : (n : ℕ) → Node n
  | 0 => ({ words := fun _ => 0, nInUse := 0, inUse := fun _ => 0 } : Level0)
  | n + 1 => ({ child := fun _ => none, nInUse := 0, level := n + 1 } : LevelN (Node n))

/-- `(key >> (i*8)) & 0xFF`. -/
def byteOf (key : UWord) (i : ℕ) : Fin 256 :=
  ⟨(key >>> (i * 8)) &&& 0xFF, Nat.lt_succ_of_le Nat.and_le_right⟩

/-- `_3_or_7`: the level of the root. -/
def topLevel : ℕ := 7

/-- The levels `i .. 0` of `VG_(lookupSWA)`. -/
def lookupFrom (key : UWord) : (i : ℕ) → Option (Node i) → Except Abort (Option UWord)
  | _, none => .ok none
  | i + 1, some (levelN : LevelN (Node i)) =>
    if ¬ levelN.level = i + 1 then .error .assertion
    else if ¬ levelN.nInUse > 0 then .error .assertion
    else lookupFrom key i (levelN.child (byteOf key (i + 1)))
  | 0, some (level0 : Level0) =>
    if ¬ level0.nInUse > 0 then .error .assertion
    else if bitarrayRead level0.inUse (byteOf key 0) = 0 then .ok none
    else .ok (some (level0.words (byteOf key 0)))

/-- The child at an index, allocated if it is NULL, and the number of children then in use. -/
def childOrNew {i : ℕ} (levelN : LevelN (Node i)) (ix : Fin 256) : Node i × ℤ :=
  match levelN.child ix with
  | none => (newNode i, levelN.nInUse + 1)
  | some child => (child, levelN.nInUse)

/-- The levels `i .. 0` of `VG_(addToSWA)`: whether the key was present, and the node afterwards. -/
def addFrom (key val : UWord) : (i : ℕ) → Node i → Except Abort (Bool × Node i)
  | i + 1, (levelN : LevelN (Node i)) =>
    if ¬ levelN.level = i + 1 then .error .assertion
    else
      let ix := byteOf key (i + 1)
      let (child, nInUse) := childOrNew levelN ix
      if ¬ (nInUse ≥ 1 ∧ nInUse ≤ 256) then .error .assertion
      else do
        let (alreadyPresent, child) ← addFrom key val i child
        return (alreadyPresent,
          { levelN with child := update levelN.child ix (some child), nInUse := nInUse })
  | 0, (level0 : Level0) =>
    let ix := byteOf key 0
    let (old, inUse) := bitarrayReadThenSet level0.inUse ix
    let (alreadyPresent, nInUse) :=
      if old = 0 then (false, level0.nInUse + 1) else (true, level0.nInUse)
    if ¬ (nInUse ≥ 1 ∧ nInUse ≤ 256) then .error .assertion
    else .ok (alreadyPresent, (Level0.mk (update level0.words ix val) nInUse inUse : Level0))

/-- `visited` and `visitedIx`: the way from the root down to a node of the level, the last first. -/
inductive Visited : ℕ → Type
  | root : Visited topLevel
  | child {n : ℕ} (levelN : LevelN (Node n)) (ix : Fin 256) (above : Visited (n + 1)) : Visited n

/-- The root after the node at the end of the way was changed in place. -/
def plug : {n : ℕ} → Visited n → Node n → Node topLevel
  | _, .root, nd => nd
  | _, .child levelN ix above, nd =>
    plug above { levelN with child := update levelN.child ix (some nd) }

/-- The loop over the levels `1 .. 7` of `VG_(delFromSWA)`: the node at the end of the way was
freed. -/
def prune : {n : ℕ} → Visited n → Except Abort (Option (Node topLevel))
  | _, .root => .ok none
  | _, .child levelN ix above =>
    if ¬ (levelN.child ix).isSome then .error .assertion
    else
      let levelN := { levelN with
        child := update levelN.child ix none, nInUse := levelN.nInUse - 1 }
      if ¬ levelN.nInUse ≥ 0 then .error .assertion
      else if levelN.nInUse > 0 then .ok (some (plug above levelN))
      else prune above

/-- The levels `i .. 0` of `VG_(delFromSWA)`: the old value and the root afterwards, unless the key
is not bound. -/
def delFrom (key : UWord) : (i : ℕ) → Option (Node i) → Visited i →
    Except Abort (Option (UWord × Option (Node topLevel)))
  | _, none, _ => .ok none
  | i + 1, some (levelN : LevelN (Node i)), visited =>
    if ¬ levelN.level = i + 1 then .error .assertion
    else if ¬ levelN.nInUse > 0 then .error .assertion
    else
      let ix := byteOf key (i + 1)
      delFrom key i (levelN.child ix) (.child levelN ix visited)
  | 0, some (level0 : Level0), visited =>
    if ¬ level0.nInUse > 0 then .error .assertion
    else
      let ix := byteOf key 0
      let (old, inUse) := bitarrayReadThenClear level0.inUse ix
      -- The bit was clear before: clearing it changed nothing.
      if old = 0 then .ok none
      else
        let oldV := level0.words ix
        let level0 : Level0 := { level0 with inUse := inUse, nInUse := level0.nInUse - 1 }
        if level0.nInUse > 0 then .ok (some (oldV, some (plug visited level0)))
        else do return some (oldV, ← prune visited)

/-- `swa_sizeSWA_wrk`. -/
def sizeWrk : (n : ℕ) → Node n → UWord
  | n + 1, (levelN : LevelN (Node n)) =>
    (List.finRange 256).foldl (fun sum i => match levelN.child i with
      | some nd => (sum + sizeWrk n nd) % 2 ^ 64
      | none => sum) 0
  | 0, (level0 : Level0) => toULong level0.nInUse

/-! ## The code: arrays -/

/-- `SWAStackElem`; `resume_point` says where to go on, and with what kind of node. -/
inductive StackElem where
  | startNewNode (partialKey : UWord) {n : ℕ} (currNd : Node n)
  | resumeLeafNode (partialKey : UWord) (currIx : ℕ) (currNd : Level0)
  | resumeNonleafNode (partialKey : UWord) (currIx : ℕ) {n : ℕ} (currNd : LevelN (Node n))

end SparseWA

open SparseWA (Node StackElem topLevel)

/-- `struct _SparseWA`, without its allocation functions; the used part of `iterStack`, top first.
-/
structure SparseWA where
  root : Option (Node topLevel)
  iterStack : List StackElem

namespace SparseWA

/-- `VG_(newSWA)`. -/
def newSWA : SparseWA := ⟨none, []⟩

/-- `VG_(lookupSWA)`: the value, or NULL. -/
def lookupSWA (swa : SparseWA) (key : UWord) : Except Abort (Option UWord) :=
  lookupFrom key topLevel swa.root

/-- `VG_(addToSWA)`: whether the key was present. -/
def addToSWA (swa : SparseWA) (key val : UWord) : Except Abort (Bool × SparseWA) := do
  let (alreadyPresent, root) ← addFrom key val topLevel (swa.root.getD (newNode topLevel))
  return (alreadyPresent, { swa with root := some root })

/-- `VG_(delFromSWA)`: the old value, or NULL. -/
def delFromSWA (swa : SparseWA) (key : UWord) : Except Abort (Option UWord × SparseWA) := do
  match ← delFrom key topLevel swa.root .root with
  | none => return (none, swa)
  | some (oldV, root) => return (some oldV, { swa with root := root })

/-- `VG_(sizeSWA)`. -/
def sizeSWA (swa : SparseWA) : UWord :=
  match swa.root with
  | some root => sizeWrk topLevel root
  | none => 0

/-! ## Bitmaps -/

/-- The bit of an index. -/
def bit (arr : Bitarray) (ix : Fin 256) : Bool := (arr (bix ix)).getLsbD (off ix)

theorem off_lt (ix : Fin 256) : off ix < 8 := mod_lt _ (by norm_num)

theorem eq_iff (ix jx : Fin 256) : jx = ix ↔ bix jx = bix ix ∧ off jx = off ix := by
  simp only [Fin.ext_iff, bix, off]
  omega

theorem toNat_and_one (b : BitVec 8) (i : ℕ) : ((b >>> i) &&& 1#8).toNat = (b.getLsbD i).toNat := by
  rw [toNat_and, toNat_ushiftRight, getLsbD, toNat_testBit,
    toNat_ofNat, shiftRight_eq_div_pow]
  exact and_one_is_mod _

theorem getLsbD_one_shiftLeft :
    ∀ i < 8, ∀ j < 8, (1#8 <<< i).getLsbD j = decide (j = i) := by decide

theorem bitarrayRead_eq (arr : Bitarray) (ix : Fin 256) :
    bitarrayRead arr ix = (bit arr ix).toNat := toNat_and_one _ _

/-- A byte is written that differs in one bit. -/
theorem bit_update (arr : Bitarray) (ix : Fin 256) {nyu : BitVec 8} {v : Bool}
    (h : ∀ j < 8, nyu.getLsbD j = if j = off ix then v else (arr (bix ix)).getLsbD j) :
    bit (update arr (bix ix) nyu) = update (bit arr) ix v := by
  funext jx
  simp only [bit, update_apply, eq_iff]
  by_cases hbix : bix jx = bix ix
  · simp [hbix, h _ (off_lt jx)]
  · simp [hbix]

theorem bit_set (arr : Bitarray) (ix : Fin 256) :
    bit (bitarrayReadThenSet arr ix).2 = update (bit arr) ix true :=
  bit_update arr ix fun j hj => by
    rw [getLsbD_or, getLsbD_one_shiftLeft _ (off_lt ix) _ hj]
    by_cases hoff : j = off ix <;> simp [hoff]

theorem bit_clear (arr : Bitarray) (ix : Fin 256) :
    bit (bitarrayReadThenClear arr ix).2 = update (bit arr) ix false :=
  bit_update arr ix fun j hj => by
    rw [getLsbD_and, getLsbD_not, getLsbD_one_shiftLeft _ (off_lt ix) _ hj]
    by_cases hoff : j = off ix <;> simp [hoff, hj]

/-! ## Counting -/

/-- The number of indices in use. -/
def used (f : Fin 256 → Bool) : ℕ := (Finset.univ.filter fun ix => f ix = true).card

section Used

variable {f : Fin 256 → Bool} {ix : Fin 256}

theorem used_le (f : Fin 256 → Bool) : used f ≤ 256 :=
  (card_filter_le _ _).trans (by simp)

theorem used_none : used (fun _ => false) = 0 := by simp [used]

theorem used_pos_of (ix : Fin 256) (h : f ix = true) : 0 < used f :=
  card_pos.mpr ⟨ix, mem_filter.mpr ⟨mem_univ ix, h⟩⟩

theorem exists_of_used_pos (h : 0 < used f) : ∃ ix, f ix = true := by
  obtain ⟨ix, hix⟩ := card_pos.mp h
  exact ⟨ix, (mem_filter.mp hix).2⟩

theorem eq_false_of_used (h : used f = 0) (ix : Fin 256) : f ix = false :=
  Bool.eq_false_iff.mpr (filter_eq_empty_iff.mp (card_eq_zero.mp h) (mem_univ ix))

/-- Using an index counts it, if it was not in use… -/
theorem used_set (h : f ix = false) : used (update f ix true) = used f + 1 := by
  have hset : (univ.filter fun jx => update f ix true jx = true)
      = insert ix (univ.filter fun jx => f jx = true) := by
    ext jx
    by_cases hjx : jx = ix <;> simp [hjx]
  rw [used, hset, card_insert_of_notMem (by simp [h]), used]

/-- …and giving one up takes it off. -/
theorem used_clear (h : f ix = true) : used (update f ix false) + 1 = used f := by
  rw [← used_set (update_self ..), update_idem, update_eq_self_iff.mpr h.symm]

/-- The count after an addition… -/
theorem used_add {c : ℤ} (hc : c = used f) (ix : Fin 256) :
    (if f ix then c else c + 1) = used (update f ix true) := by
  split_ifs with h
  · rw [hc, update_eq_self_iff.mpr h.symm]
  · rw [hc, used_set (Bool.not_eq_true _ ▸ h)]
    rfl

/-- …passes its assertion. -/
theorem used_add_range (f : Fin 256 → Bool) (ix : Fin 256) :
    (used (update f ix true) : ℤ) ≥ 1 ∧ (used (update f ix true) : ℤ) ≤ 256 := by
  have hpos : 0 < used (update f ix true) := used_pos_of ix (update_self ..)
  have hle := used_le (update f ix true)
  omega

end Used

/-! ## Bytes of a key -/

theorem byteOf_val (key i : ℕ) : (byteOf key i : ℕ) = key / 256 ^ i % 256 := by
  have hand : (key >>> (i * 8)) &&& 0xFF = (key >>> (i * 8)) % 2 ^ 8 :=
    and_two_pow_sub_one_eq_mod _ 8
  have hpow : (256 : ℕ) ^ i = 2 ^ (i * 8) := by
    rw [mul_comm, pow_mul]
    norm_num
  rw [byteOf, hpow, ← shiftRight_eq_div_pow]
  exact hand

/-- Keys agree on their lower bytes. -/
def SameBelow (n k key : ℕ) : Prop := k % 256 ^ n = key % 256 ^ n

instance (n k key : ℕ) : Decidable (SameBelow n k key) := inferInstanceAs (Decidable (_ = _))

theorem sameBelow_zero (k key : ℕ) : SameBelow 0 k key := by simp [SameBelow, mod_one]

theorem sameBelow_succ {n k key : ℕ} :
    SameBelow (n + 1) k key ↔ byteOf k n = byteOf key n ∧ SameBelow n k key := by
  rw [SameBelow, SameBelow, Fin.ext_iff, byteOf_val, byteOf_val]
  constructor
  · intro h
    have hdvd : 256 ^ n ∣ 256 ^ (n + 1) := pow_dvd_pow _ n.le_succ
    refine ⟨?_, ?_⟩
    · rw [← mod_mul_right_div_self k, ← mod_mul_right_div_self key, ← pow_succ, h]
    · rw [← mod_mod_of_dvd k hdvd, h, mod_mod_of_dvd key hdvd]
  · rintro ⟨hbyte, hbelow⟩
    rw [mod_pow_succ, mod_pow_succ, hbyte, hbelow]

theorem sameBelow_top {k key : ℕ} (hk : k < 2 ^ 64) (hkey : key < 2 ^ 64) :
    SameBelow (topLevel + 1) k key ↔ k = key := by
  have hpow : 256 ^ (topLevel + 1) = 2 ^ 64 := by norm_num [topLevel]
  rw [SameBelow, hpow, mod_eq_of_lt hk, mod_eq_of_lt hkey]

/-! ## What a node holds -/

/-- The binding of a key in a node, by the lower bytes of the key. -/
def nodeMap : (n : ℕ) → Node n → UWord → Option UWord
  | n + 1, (levelN : LevelN (Node n)), key =>
    (levelN.child (byteOf key (n + 1))).bind (nodeMap n · key)
  | 0, (level0 : Level0), key =>
    if bit level0.inUse (byteOf key 0) then some (level0.words (byteOf key 0)) else none

/-- Which children or words of a node are in use. -/
def slots : (n : ℕ) → Node n → Fin 256 → Bool
  | _ + 1, (levelN : LevelN (Node _)) => fun ix => (levelN.child ix).isSome
  | 0, (level0 : Level0) => bit level0.inUse

/-- The field `nInUse` of a node. -/
def nInUse : (n : ℕ) → Node n → ℤ
  | _ + 1, (levelN : LevelN (Node _)) => levelN.nInUse
  | 0, (level0 : Level0) => level0.nInUse

/-- The node counts what it has in use, and so does every node below it, which has something in use.
Each node is of the level it says. -/
def Counted : (n : ℕ) → Node n → Prop
  | n + 1, (levelN : LevelN (Node n)) => levelN.level = n + 1
    ∧ levelN.nInUse = used (slots (n + 1) levelN)
    ∧ ∀ ix nd, levelN.child ix = some nd → Counted n nd ∧ 0 < nInUse n nd
  | 0, (level0 : Level0) => level0.nInUse = used (slots 0 level0)

/-- The node and all nodes below it count what they have in use, which is not nothing. -/
def Live (n : ℕ) (nd : Node n) : Prop := Counted n nd ∧ 0 < nInUse n nd

theorem Counted.nInUse_eq {n : ℕ} {nd : Node n} (h : Counted n nd) :
    nInUse n nd = used (slots n nd) := by
  cases n with
  | zero => exact h
  | succ n => exact h.2.1

theorem slots_newNode (n : ℕ) : slots n (newNode n) = fun _ => false := by
  cases n with
  | zero =>
    funext ix
    simp [slots, newNode, bit]
  | succ n => rfl

theorem counted_newNode (n : ℕ) : Counted n (newNode n) := by
  have hused : (0 : ℤ) = used (slots n (newNode n)) := by
    rw [slots_newNode, used_none]
    rfl
  cases n with
  | zero => exact hused
  | succ n => exact ⟨rfl, hused, fun ix nd h => nomatch h⟩

theorem nodeMap_of_unused {n : ℕ} {nd : Node n} {k : UWord} (h : slots n nd (byteOf k n) = false) :
    nodeMap n nd k = none := by
  cases n with
  | zero => exact if_neg (Bool.eq_false_iff.mp h)
  | succ n =>
    rw [nodeMap, not_isSome_iff_eq_none.mp (Bool.eq_false_iff.mp h)]
    rfl

theorem nodeMap_newNode (n : ℕ) (key : UWord) : nodeMap n (newNode n) key = none :=
  nodeMap_of_unused (by rw [slots_newNode])

/-- **A lookup finds the binding.** -/
theorem lookupFrom_eq (key : UWord) (n : ℕ) {o : Option (Node n)} (h : ∀ nd ∈ o, Live n nd) :
    lookupFrom key n o = .ok (o.bind (nodeMap n · key)) := by
  induction n with
  | zero =>
    cases o with
    | none => rfl
    | some level0 =>
      obtain ⟨-, hpos⟩ := h _ rfl
      have hpos' : level0.nInUse > 0 := hpos
      rw [lookupFrom, if_neg (not_not.mpr hpos'), bitarrayRead_eq, bind_some, nodeMap]
      cases bit level0.inUse (byteOf key 0) <;> rfl
  | succ n ih =>
    cases o with
    | none => rfl
    | some levelN =>
      obtain ⟨⟨hlevel, -, hbelow⟩, hpos⟩ := h _ rfl
      have hpos' : levelN.nInUse > 0 := hpos
      rw [lookupFrom, if_neg (not_not.mpr hlevel), if_neg (not_not.mpr hpos'), ih]
      · rfl
      · exact fun nd hnd => hbelow _ nd hnd

/-! ## Adding -/

/-- A node of which one child was set, and the count with it. -/
theorem counted_update {n : ℕ} {levelN : LevelN (Node n)} (h : Counted (n + 1) levelN)
    (ix : Fin 256) {o : Option (Node n)} (ho : ∀ nd ∈ o, Live n nd) {c : ℤ}
    (hc : c = used fun jx => (update levelN.child ix o jx).isSome) :
    Counted (n + 1) { levelN with child := update levelN.child ix o, nInUse := c } := by
  refine ⟨h.1, hc, fun jx nd hjx => ?_⟩
  change update levelN.child ix o jx = some nd at hjx
  by_cases hjx' : jx = ix
  · rw [hjx', update_self] at hjx
    exact ho nd hjx
  · rw [update_of_ne hjx'] at hjx
    exact h.2.2 jx nd hjx

theorem isSome_update {ν : Type} (child : Fin 256 → Option ν) (ix : Fin 256) (o : Option ν) :
    (fun jx => (update child ix o jx).isSome) = update (fun jx => (child jx).isSome) ix o.isSome :=
  comp_update Option.isSome child ix o

/-- The child an addition descends into holds what was there, and the count takes it in. -/
theorem childOrNew_spec {n : ℕ} {levelN : LevelN (Node n)} (h : Counted (n + 1) levelN)
    (ix : Fin 256) :
    Counted n (childOrNew levelN ix).1
      ∧ (∀ k, nodeMap n (childOrNew levelN ix).1 k = (levelN.child ix).bind (nodeMap n · k))
      ∧ (childOrNew levelN ix).2 = used (update (slots (n + 1) levelN) ix true) := by
  have hadd := used_add h.nInUse_eq ix
  rw [childOrNew]
  cases hchild : levelN.child ix with
  | none =>
    rw [if_neg (by simp [slots, hchild])] at hadd
    exact ⟨counted_newNode n, fun k => nodeMap_newNode n k, hadd⟩
  | some child =>
    rw [if_pos (by simp [slots, hchild])] at hadd
    exact ⟨(h.2.2 ix child hchild).1, fun k => rfl, hadd⟩

/-- Adding to a node of level 0. -/
theorem addFrom_zero (key val : UWord) {level0 : Level0} (h : Counted 0 level0) :
    ∃ level0', addFrom key val 0 level0 = .ok (bit level0.inUse (byteOf key 0), level0')
      ∧ Live 0 level0' ∧ level0'.words = update level0.words (byteOf key 0) val
      ∧ bit level0'.inUse = update (bit level0.inUse) (byteOf key 0) true := by
  have hset := bit_set level0.inUse (byteOf key 0)
  have hused := used_add (f := bit level0.inUse) h (byteOf key 0)
  have hrange := used_add_range (bit level0.inUse) (byteOf key 0)
  -- what was read of the bitmap says which of the two counts is right
  have hold : (if (bitarrayReadThenSet level0.inUse (byteOf key 0)).1 = 0
        then (false, level0.nInUse + 1) else (true, level0.nInUse))
      = (bit level0.inUse (byteOf key 0),
        (used (update (bit level0.inUse) (byteOf key 0) true) : ℤ)) := by
    rw [← hused, show (bitarrayReadThenSet level0.inUse (byteOf key 0)).1
      = (bit level0.inUse (byteOf key 0)).toNat from toNat_and_one _ _]
    cases bit level0.inUse (byteOf key 0) <;> rfl
  refine ⟨⟨update level0.words (byteOf key 0) val, _, _⟩, ?_,
    ⟨congrArg (fun f => (used f : ℤ)) hset.symm, hrange.1⟩, rfl, hset⟩
  rw [addFrom]
  dsimp only
  rw [hold]
  exact if_neg (not_not.mpr hrange)

/-- **Adding binds the key**, and returns whether it was bound. -/
theorem addFrom_spec (key val : UWord) (n : ℕ) {nd : Node n} (h : Counted n nd) :
    ∃ nd', addFrom key val n nd = .ok ((nodeMap n nd key).isSome, nd') ∧ Live n nd'
      ∧ ∀ k, nodeMap n nd' k = if SameBelow (n + 1) k key then some val else nodeMap n nd k := by
  induction n with
  | zero =>
    obtain ⟨nd', hadd, hlive, hwords, hbits⟩ := addFrom_zero key val h
    refine ⟨nd', ?_, hlive, fun k => ?_⟩
    · rw [hadd, nodeMap]
      cases bit nd.inUse (byteOf key 0) <;> rfl
    · simp only [sameBelow_succ]
      rw [nodeMap, nodeMap, hwords, hbits]
      by_cases hk : byteOf k 0 = byteOf key 0
      · simp [hk, sameBelow_zero]
      · simp [hk]
  | succ n ih =>
    obtain ⟨hchild, hmap, hcount⟩ := childOrNew_spec h (byteOf key (n + 1))
    obtain ⟨child', hadd, hlive, hmap'⟩ := ih hchild
    have hrange := used_add_range (slots (n + 1) nd) (byteOf key (n + 1))
    rw [← hcount] at hrange
    have hcounted := counted_update h (byteOf key (n + 1)) (o := some child')
      (fun _ hnd => some.inj hnd ▸ hlive) (c := (childOrNew nd (byteOf key (n + 1))).2)
      (by rw [isSome_update, hcount]; rfl)
    refine ⟨_, ?_, ⟨hcounted, hrange.1⟩, fun k => ?_⟩
    · rw [addFrom, if_neg (not_not.mpr h.1)]
      dsimp only
      rw [if_neg (not_not.mpr hrange), hadd, ok_bind, hmap]
      rfl
    · simp only [sameBelow_succ (n := n + 1)]
      rw [nodeMap, nodeMap]
      by_cases hk : byteOf k (n + 1) = byteOf key (n + 1)
      · simp [hk, hmap', hmap]
      · simp [hk]

/-! ## Deleting -/

/-- What deleting a key does to a node: the value it had, and the node afterwards, if it is not
freed. -/
def delNode (key : UWord) : (n : ℕ) → Node n → Option (UWord × Option (Node n))
  | n + 1, (levelN : LevelN (Node n)) =>
    match (levelN.child (byteOf key (n + 1))).bind (delNode key n) with
    | none => none
    | some (oldV, some child) => some (oldV, some { levelN with
        child := update levelN.child (byteOf key (n + 1)) (some child) })
    | some (oldV, none) => some (oldV, if levelN.nInUse - 1 > 0 then some { levelN with
        child := update levelN.child (byteOf key (n + 1)) none
        nInUse := levelN.nInUse - 1 } else none)
  | 0, (level0 : Level0) =>
    if bit level0.inUse (byteOf key 0) then
      some (level0.words (byteOf key 0), if level0.nInUse - 1 > 0 then some { level0 with
        inUse := (bitarrayReadThenClear level0.inUse (byteOf key 0)).2
        nInUse := level0.nInUse - 1 } else none)
    else none

/-- Every node on the way has the child the way goes to. -/
def OnWay : {n : ℕ} → Visited n → Prop
  | _, .root => True
  | _, .child levelN ix above => (levelN.child ix).isSome ∧ 0 < levelN.nInUse ∧ OnWay above

/-- What becomes of the root when the node at the end of the way is changed or freed. -/
def replace : {n : ℕ} → Visited n → Option (Node n) → Except Abort (Option (Node topLevel))
  | _, visited, some nd => .ok (some (plug visited nd))
  | _, visited, none => prune visited

theorem delFrom_none (key : UWord) (n : ℕ) (visited : Visited n) :
    delFrom key n none visited = .ok none := by
  cases n <;> rfl

/-- **The way down and back up is the recursion over the levels.** -/
theorem delFrom_eq (key : UWord) (n : ℕ) {nd : Node n} (h : Live n nd) (visited : Visited n)
    (hway : OnWay visited) :
    delFrom key n (some nd) visited = match delNode key n nd with
      | none => .ok none
      | some (oldV, o) => do return some (oldV, ← replace visited o) := by
  induction n with
  | zero =>
    have hpos : nd.nInUse > 0 := h.2
    have hold : (bitarrayReadThenClear nd.inUse (byteOf key 0)).1
        = (bit nd.inUse (byteOf key 0)).toNat := toNat_and_one _ _
    rw [delFrom, if_neg (not_not.mpr hpos), delNode]
    dsimp only
    rw [hold]
    cases bit nd.inUse (byteOf key 0) with
    | false => rfl
    | true =>
      rw [if_neg (show ¬ true.toNat = 0 by decide), if_pos rfl]
      dsimp only
      split_ifs with hlast <;> rfl
  | succ n ih =>
    obtain ⟨⟨hlevel, -, hbelow⟩, hpos⟩ := h
    have hpos' : nd.nInUse > 0 := hpos
    rw [delFrom, if_neg (not_not.mpr hlevel), if_neg (not_not.mpr hpos'), delNode]
    dsimp only
    cases hchild : nd.child (byteOf key (n + 1)) with
    | none => exact delFrom_none key n _
    | some child =>
      have hway' : OnWay (.child nd (byteOf key (n + 1)) visited) := by
        rw [OnWay, hchild]
        exact ⟨rfl, hpos', hway⟩
      rw [ih (hbelow _ child hchild) _ hway', bind_some]
      cases delNode key n child with
      | none => rfl
      | some r =>
        obtain ⟨oldV, _ | child'⟩ := r
        · dsimp only
          rw [replace, prune, if_neg (by rw [hchild]; simp)]
          dsimp only
          rw [if_neg (by omega)]
          split_ifs with hlast <;> rfl
        · rfl

/-- A node that has nothing in use holds nothing. -/
theorem nodeMap_of_empty {n : ℕ} {nd : Node n} (h : Counted n nd) (hempty : ¬ nInUse n nd > 0)
    (k : UWord) : nodeMap n nd k = none := by
  have hused : used (slots n nd) = 0 := by
    have hcount := h.nInUse_eq
    omega
  exact nodeMap_of_unused (eq_false_of_used hused _)

/-- Freeing a node that has nothing in use keeps what the trie holds. -/
theorem free_spec {n : ℕ} {nd : Node n} (h : Counted n nd) :
    (∀ nd' ∈ (if nInUse n nd > 0 then some nd else none), Live n nd')
      ∧ ∀ k, (if nInUse n nd > 0 then some nd else none).bind (nodeMap n · k) = nodeMap n nd k := by
  split_ifs with hpos
  · refine ⟨fun nd' hnd' => ?_, fun k => rfl⟩
    obtain rfl := some.inj hnd'
    exact ⟨h, hpos⟩
  · exact ⟨fun nd' hnd' => (nomatch hnd'), fun k => (nodeMap_of_empty h hpos k).symm⟩

/-- **Deleting unbinds the key**, and returns what it was bound to. -/
theorem delNode_spec (key : UWord) (n : ℕ) {nd : Node n} (h : Live n nd) :
    match delNode key n nd with
    | none => nodeMap n nd key = none
    | some (oldV, o) => nodeMap n nd key = some oldV ∧ (∀ nd' ∈ o, Live n nd')
      ∧ ∀ k, o.bind (nodeMap n · k)
        = if SameBelow (n + 1) k key then none else nodeMap n nd k := by
  induction n with
  | zero =>
    rw [delNode]
    by_cases hbit : bit nd.inUse (byteOf key 0) = true
    · let level0' : Level0 := { nd with
        inUse := (bitarrayReadThenClear nd.inUse (byteOf key 0)).2, nInUse := nd.nInUse - 1 }
      have hclear : bit level0'.inUse = update (bit nd.inUse) (byteOf key 0) false :=
        bit_clear _ _
      have hcounted : Counted 0 level0' := by
        have hcount : nd.nInUse = used (bit nd.inUse) := h.1
        have hused := used_clear hbit
        change nd.nInUse - 1 = used (bit level0'.inUse)
        rw [hclear, hcount]
        omega
      obtain ⟨hlive, hmap⟩ := free_spec hcounted
      rw [if_pos hbit]
      refine ⟨by rw [nodeMap, if_pos hbit], hlive, fun k => (hmap k).trans ?_⟩
      simp only [sameBelow_succ]
      rw [nodeMap, nodeMap, hclear]
      by_cases hk : byteOf k 0 = byteOf key 0
      · simp [hk, sameBelow_zero]
      · simp [hk, level0']
    · rw [if_neg hbit]
      dsimp only
      rw [nodeMap, if_neg hbit]
  | succ n ih =>
    obtain ⟨hcounted, hpos⟩ := h
    rw [delNode]
    cases hchild : nd.child (byteOf key (n + 1)) with
    | none =>
      rw [bind_none]
      dsimp only
      rw [nodeMap, hchild, bind_none]
    | some child =>
      rw [bind_some]
      have hih := ih (hcounted.2.2 _ child hchild)
      cases hdel : delNode key n child with
      | none =>
        rw [hdel] at hih
        dsimp only
        rw [nodeMap, hchild, bind_some]
        exact hih
      | some r =>
        obtain ⟨oldV, o⟩ := r
        rw [hdel] at hih
        obtain ⟨hold, hlive, hmap⟩ := hih
        have hold' : nodeMap (n + 1) nd key = some oldV := by
          rw [nodeMap, hchild, bind_some, hold]
        -- Whatever becomes of the child, the other children are as they were.
        have hmap' : ∀ k c, nodeMap (n + 1) { nd with
            child := update nd.child (byteOf key (n + 1)) o, nInUse := c } k
            = if SameBelow (n + 1 + 1) k key then none else nodeMap (n + 1) nd k := by
          intro k c
          simp only [sameBelow_succ (n := n + 1)]
          rw [nodeMap, nodeMap]
          by_cases hk : byteOf k (n + 1) = byteOf key (n + 1)
          · simp [hk, hchild, hmap]
          · simp [hk]
        cases o with
        | some child' =>
          have hsame : nd.nInUse = used fun jx =>
              (update nd.child (byteOf key (n + 1)) (some child') jx).isSome := by
            rw [isSome_update, update_eq_self_iff.mpr (by rw [hchild]; rfl), hcounted.2.1]
            rfl
          refine ⟨hold', fun nd' hnd' => ?_, fun k => hmap' k nd.nInUse⟩
          obtain rfl := some.inj hnd'
          exact ⟨counted_update hcounted _ hlive hsame, hpos⟩
        | none =>
          have hless : nd.nInUse - 1 = used fun jx =>
              (update nd.child (byteOf key (n + 1)) none jx).isSome := by
            have hslot : slots (n + 1) nd (byteOf key (n + 1)) = true :=
              isSome_iff_exists.mpr ⟨child, hchild⟩
            have hused := used_clear hslot
            rw [isSome_update, hcounted.2.1, ← hused, cast_add, cast_one,
              add_sub_cancel_right]
            rfl
          obtain ⟨hlive', hfree⟩ := free_spec (counted_update hcounted _ hlive hless)
          exact ⟨hold', hlive', fun k => (hfree k).trans (hmap' k _)⟩

end SparseWA

end Valgrind
