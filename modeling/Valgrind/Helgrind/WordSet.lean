import Valgrind.Core.WordFM
import Valgrind.Foundations.Alignment
import Mathlib.Data.List.TakeWhile

/-!
# Helgrind/WordSet — `helgrind/hg_wordset.c`: sets of words with small handles

A universe of word sets keeps each set once, as a sorted vector of words.  `vec2ix` finds the
handle of a vector, `ix2vec` the vector of a handle.  The slots of dead handles are chained, through
the slots themselves, by pointers into the array.  Four operations remember their last results.

* `mergeWords_eq` — union, intersection and difference read off an alignment of two vectors;
* `keyOrd_cmpWordVecs` — vectors are ordered by size, then lexicographically.
-/

namespace Valgrind.Helgrind

open Alignment List

/-! ## Vectors -/

/-- `WordVec`: where it was allocated, and its words. -/
structure WordVec where
  ptr : ℕ
  words : List UWord
deriving DecidableEq, Repr

/-- `wv->size`. -/
def WordVec.size (wv : WordVec) : ℕ := wv.words.length

/-- The loop of `cmp_WordVecs_for_FM` over two arrays of the same size. -/
def cmpWords : List UWord → List UWord → ℤ
  | w1 :: ws1, w2 :: ws2 =>
    if w1 = w2 then cmpWords ws1 ws2 else if w1 < w2 then -1 else 1
  | _, _ => 0

/-- `cmp_WordVecs_for_FM`. -/
def cmpWordVecs (wv1 wv2 : WordVec) : ℤ :=
  if wv1.size < wv2.size then -1
  else if wv1.size > wv2.size then 1
  else cmpWords wv1.words wv2.words

/-- Which words a walk along two vectors takes: those of the first only, of the second only, and of
both. -/
structure Keep where
  left : Bool
  right : Bool
  both : Bool

/-- The words taken at one place of the walk. -/
def Keep.take (keep : Bool) (w : UWord) : List UWord := if keep then [w] else []

/-- The first pass: how many words are taken.  One vector's rest is taken as a whole. -/
def mergeSize (k : Keep) : List UWord → List UWord → ℕ
  | [], ws2 => if k.right then ws2.length else 0
  | w1 :: ws1, [] => if k.left then (w1 :: ws1).length else 0
  | w1 :: ws1, w2 :: ws2 =>
    if w1 < w2 then (if k.left then 1 else 0) + mergeSize k ws1 (w2 :: ws2)
    else if w1 > w2 then (if k.right then 1 else 0) + mergeSize k (w1 :: ws1) ws2
    else (if k.both then 1 else 0) + mergeSize k ws1 ws2
termination_by ws1 ws2 => ws1.length + ws2.length

/-- The second pass: the words themselves. -/
def mergeWords (k : Keep) : List UWord → List UWord → List UWord
  | [], ws2 => if k.right then ws2 else []
  | w1 :: ws1, [] => if k.left then w1 :: ws1 else []
  | w1 :: ws1, w2 :: ws2 =>
    if w1 < w2 then Keep.take k.left w1 ++ mergeWords k ws1 (w2 :: ws2)
    else if w1 > w2 then Keep.take k.right w2 ++ mergeWords k (w1 :: ws1) ws2
    else Keep.take k.both w1 ++ mergeWords k ws1 ws2
termination_by ws1 ws2 => ws1.length + ws2.length

/-- `HG_(unionWS)` takes every word, … -/
def unionKeep : Keep := ⟨true, true, true⟩

/-- …`HG_(intersectWS)` those of both, … -/
def intersectKeep : Keep := ⟨false, false, true⟩

/-- …`HG_(minusWS)` those of the first only. -/
def minusKeep : Keep := ⟨true, false, false⟩

/-- The copying loops of `HG_(addToWS)`: the smaller words, the new one, the others. -/
def addWord (w : UWord) (ws : List UWord) : Except Abort (List UWord) := do
  let above := ws.dropWhile (· < w)
  vgAssert (∀ x ∈ above, x > w)
  return ws.takeWhile (· < w) ++ w :: above

/-! ### What the passes compute -/

/-- What a walk takes at one turn. -/
def Keep.pick (k : Keep) : Turn UWord → Option UWord
  | .left w => if k.left then some w else none
  | .right w => if k.right then some w else none
  | .both w _ => if k.both then some w else none

theorem mergeWords_nil_right (k : Keep) (ws1 : List UWord) :
    mergeWords k ws1 [] = if k.left then ws1 else [] := by
  cases ws1 <;> simp [mergeWords]

/-- **A merge takes what it picks from the alignment of the two vectors.** -/
theorem mergeWords_eq (k : Keep) (ws1 ws2 : List UWord) :
    mergeWords k ws1 ws2 = (align id ws1 ws2).filterMap k.pick := by
  fun_induction align id ws1 ws2 with
  | case1 => simp [mergeWords]
  | case2 w2 ws2 ih =>
    rw [filterMap_cons, ← ih, Keep.pick, mergeWords, mergeWords]
    cases k.right <;> rfl
  | case3 w1 ws1 ih =>
    rw [filterMap_cons, ← ih, Keep.pick, mergeWords_nil_right, mergeWords_nil_right]
    cases k.left <;> rfl
  | case4 w1 ws1 w2 ws2 hlt ih =>
    rw [id, id] at hlt
    rw [mergeWords, if_pos hlt, ih, filterMap_cons, Keep.pick, Keep.take]
    cases k.left <;> rfl
  | case5 w1 ws1 w2 ws2 hlt hgt ih =>
    rw [id, id] at hlt hgt
    rw [mergeWords, if_neg hlt, if_pos hgt, ih, filterMap_cons, Keep.pick, Keep.take]
    cases k.right <;> rfl
  | case6 w1 ws1 w2 ws2 hlt hgt ih =>
    rw [id, id] at hlt hgt
    rw [mergeWords, if_neg hlt, if_neg hgt, ih, filterMap_cons, Keep.pick, Keep.take]
    cases k.both <;> rfl

/-- The first pass counts what the second stores. -/
theorem mergeSize_eq (k : Keep) (ws1 ws2 : List UWord) :
    mergeSize k ws1 ws2 = (mergeWords k ws1 ws2).length := by
  fun_induction mergeWords k ws1 ws2 with
  | case1 ws2 h => rw [mergeSize, if_pos h]
  | case2 ws2 h => rw [mergeSize, if_neg h, length_nil]
  | case3 w1 ws1 h => rw [mergeSize, if_pos h]
  | case4 w1 ws1 h => rw [mergeSize, if_neg h, length_nil]
  | case5 w1 ws1 w2 ws2 hlt ih =>
    rw [mergeSize, if_pos hlt, ih, length_append, Keep.take]
    cases k.left <;> rfl
  | case6 w1 ws1 w2 ws2 hlt hgt ih =>
    rw [mergeSize, if_neg hlt, if_pos hgt, ih, length_append, Keep.take]
    cases k.right <;> rfl
  | case7 w1 ws1 w2 ws2 hlt hgt ih =>
    rw [mergeSize, if_neg hlt, if_neg hgt, ih, length_append, Keep.take]
    cases k.both <;> rfl

/-- A walk picks the key it meets. -/
theorem Keep.eq_keyBy_of_pick {k : Keep} {x : Turn UWord} {w : UWord} (h : k.pick x = some w) :
    w = x.keyBy id := by
  cases x <;> simp only [Keep.pick] at h <;> split_ifs at h <;> exact (Option.some.inj h).symm

section Merge

variable {ws1 ws2 : List UWord} (h1 : ws1.Pairwise (· < ·)) (h2 : ws2.Pairwise (· < ·))

include h1 h2

/-- A merge of sorted vectors is sorted. -/
theorem pairwise_mergeWords (k : Keep) : (mergeWords k ws1 ws2).Pairwise (· < ·) := by
  rw [mergeWords_eq, pairwise_filterMap]
  have hpair : (align id ws1 ws2).Pairwise fun x y => x.keyBy id < y.keyBy id :=
    pairwise_align h1 h2
  refine hpair.imp fun {x y} hxy w hw w' hw' => ?_
  rwa [Keep.eq_keyBy_of_pick hw, Keep.eq_keyBy_of_pick hw']

theorem mem_mergeWords (k : Keep) (w : UWord) :
    w ∈ mergeWords k ws1 ws2 ↔ k.left ∧ w ∈ ws1 ∧ w ∉ ws2 ∨ k.right ∧ w ∈ ws2 ∧ w ∉ ws1
      ∨ k.both ∧ w ∈ ws1 ∧ w ∈ ws2 := by
  rw [mergeWords_eq, mem_filterMap]
  constructor
  · rintro ⟨x, hx, hpick⟩
    have hmeets : Meets id ws1 ws2 x := (mem_align h1 h2 x).mp hx
    cases x with
    | left a =>
      simp only [Keep.pick, Option.ite_none_right_eq_some, Option.some.injEq] at hpick
      obtain ⟨hk, rfl⟩ := hpick
      exact .inl ⟨hk, hmeets.1, fun h => hmeets.2 a h rfl⟩
    | right b =>
      simp only [Keep.pick, Option.ite_none_right_eq_some, Option.some.injEq] at hpick
      obtain ⟨hk, rfl⟩ := hpick
      exact .inr (.inl ⟨hk, hmeets.1, fun h => hmeets.2 b h rfl⟩)
    | both a b =>
      simp only [Keep.pick, Option.ite_none_right_eq_some, Option.some.injEq] at hpick
      obtain ⟨hk, rfl⟩ := hpick
      obtain ⟨ha, hb, heq⟩ := hmeets
      exact .inr (.inr ⟨hk, ha, (show a = b from heq) ▸ hb⟩)
  · rintro (⟨hk, ha, hb⟩ | ⟨hk, hb, ha⟩ | ⟨hk, ha, hb⟩)
    · refine ⟨.left w, (mem_align h1 h2 _).mpr ⟨ha, ?_⟩, if_pos hk⟩
      rintro b hb' rfl
      exact hb hb'
    · refine ⟨.right w, (mem_align h1 h2 _).mpr ⟨hb, ?_⟩, if_pos hk⟩
      rintro a ha' rfl
      exact ha ha'
    · exact ⟨.both w w, (mem_align h1 h2 _).mpr ⟨ha, hb, rfl⟩, if_pos hk⟩

theorem toFinset_mergeWords_union :
    (mergeWords unionKeep ws1 ws2).toFinset = ws1.toFinset ∪ ws2.toFinset := by
  ext w
  simp only [mem_toFinset, mem_mergeWords h1 h2, Finset.mem_union, unionKeep]
  tauto

theorem toFinset_mergeWords_intersect :
    (mergeWords intersectKeep ws1 ws2).toFinset = ws1.toFinset ∩ ws2.toFinset := by
  ext w
  simp only [mem_toFinset, mem_mergeWords h1 h2, Finset.mem_inter, intersectKeep]
  tauto

theorem toFinset_mergeWords_minus :
    (mergeWords minusKeep ws1 ws2).toFinset = ws1.toFinset \ ws2.toFinset := by
  ext w
  simp only [mem_toFinset, mem_mergeWords h1 h2, Finset.mem_sdiff, minusKeep]
  tauto

end Merge

/-- The words that are not below a new one are above it. -/
theorem lt_of_mem_dropWhile {w : UWord} {ws : List UWord} (h : ws.Pairwise (· < ·))
    (hw : w ∉ ws) : ∀ x ∈ ws.dropWhile (· < w), w < x := by
  induction ws with
  | nil => exact nofun
  | cons a ws ih =>
    obtain ⟨hne, hws⟩ := not_or.mp (mem_cons.not.mp hw)
    obtain ⟨ha, hpair⟩ := pairwise_cons.mp h
    by_cases haw : a < w
    · rw [dropWhile_cons_of_pos (by simpa using haw)]
      exact ih hpair hws
    · rw [dropWhile_cons_of_neg (by simpa using haw)]
      have hwa : w < a := lt_of_le_of_ne (not_lt.mp haw) hne
      exact forall_mem_cons.mpr ⟨hwa, fun x hx => hwa.trans (ha x hx)⟩

/-- **A new word goes to its place.** -/
theorem addWord_spec {w : UWord} {ws : List UWord} (h : ws.Pairwise (· < ·)) (hw : w ∉ ws) :
    ∃ ws', addWord w ws = .ok ws' ∧ ws'.Pairwise (· < ·) ∧ ws'.length = ws.length + 1
      ∧ ws'.toFinset = insert w ws.toFinset := by
  have habove := lt_of_mem_dropWhile h hw
  have hperm : (ws.takeWhile (· < w) ++ w :: ws.dropWhile (· < w)).Perm (w :: ws) := by
    refine perm_middle.trans (List.Perm.cons w ?_)
    rw [takeWhile_append_dropWhile]
  refine ⟨_, by rw [addWord, vgAssert_bind habove]; rfl, ?_, hperm.length_eq, ?_⟩
  · rw [pairwise_append, pairwise_cons]
    refine ⟨h.sublist (takeWhile_sublist _), ⟨habove, h.sublist (dropWhile_sublist _)⟩, ?_⟩
    intro x hx y hy
    have hxw : x < w := by simpa using mem_takeWhile_imp hx
    rcases mem_cons.mp hy with rfl | hy
    · exact hxw
    · exact hxw.trans (habove y hy)
  · rw [toFinset_eq_of_perm _ _ hperm, toFinset_cons]

/-- A word is taken out. -/
theorem eraseWord_spec {ws : List UWord} (h : ws.Pairwise (· < ·)) (w : UWord) :
    (ws.eraseIdx (ws.idxOf w)).Pairwise (· < ·)
      ∧ (ws.eraseIdx (ws.idxOf w)).toFinset = ws.toFinset.erase w := by
  rw [eraseIdx_idxOf_eq_erase]
  refine ⟨h.sublist erase_sublist, ?_⟩
  ext x
  rw [mem_toFinset, h.nodup.mem_erase_iff, Finset.mem_erase, mem_toFinset]

/-- Sorted vectors of the same words are the same. -/
theorem eq_of_toFinset_eq {ws1 ws2 : List UWord} (h1 : ws1.Pairwise (· < ·))
    (h2 : ws2.Pairwise (· < ·)) (h : ws1.toFinset = ws2.toFinset) : ws1 = ws2 := by
  refine h1.eq_of_mem_iff h2 fun w => ?_
  rw [← mem_toFinset, h, mem_toFinset]

/-- The loop compares vectors of the same size lexicographically. -/
theorem compare_cmpWords {ws1 ws2 : List UWord} (h : ws1.length = ws2.length) :
    compare (cmpWords ws1 ws2) 0 = compare ws1 ws2 := by
  induction ws1 generalizing ws2 with
  | nil =>
    obtain rfl := length_eq_zero_iff.mp h.symm
    rfl
  | cons w1 ws1 ih =>
    cases ws2 with
    | nil => exact nomatch h
    | cons w2 ws2 =>
      rw [cmpWords, List.compare_cons_cons]
      split_ifs with heq hlt
      · rw [heq, ih (Nat.succ.inj h), compare_eq_iff_eq.mpr rfl, Ordering.then]
      · rw [compare_lt_iff_lt.mpr hlt]
        rfl
      · rw [compare_gt_iff_gt.mpr (lt_of_le_of_ne (not_lt.mp hlt) (Ne.symm heq))]
        rfl

/-- **Vectors are ordered by size, then lexicographically.** -/
theorem keyOrd_cmpWordVecs :
    keyOrd cmpWordVecs = compareLex (compareOn WordVec.size) (compareOn WordVec.words) := by
  funext wv1 wv2
  simp only [keyOrd, cmpWordVecs, compareLex, compareOn]
  split_ifs with hlt hgt
  · rw [compare_lt_iff_lt.mpr hlt]
    rfl
  · rw [compare_gt_iff_gt.mpr hgt]
    rfl
  · have hsize : wv1.size = wv2.size := le_antisymm (not_lt.mp hgt) (not_lt.mp hlt)
    rw [compare_cmpWords hsize, compare_eq_iff_eq.mpr hsize, Ordering.then]

instance : Std.TransCmp (keyOrd cmpWordVecs) := by
  rw [keyOrd_cmpWordVecs]
  infer_instance

/-- Vectors compare equal iff they have the same words. -/
theorem keyOrd_cmpWordVecs_eq_iff {wv1 wv2 : WordVec} :
    keyOrd cmpWordVecs wv1 wv2 = .eq ↔ wv1.words = wv2.words := by
  simp only [keyOrd_cmpWordVecs, compareLex, compareOn, Ordering.then_eq_eq,
    Std.LawfulEqCmp.compare_eq_iff_eq]
  exact ⟨And.right, fun h => ⟨congrArg List.length h, h⟩⟩

/-! ## Caches -/

/-- `WCacheEnt`. -/
structure WCacheEnt where
  arg1 : UWord
  arg2 : UWord
  res : UWord
deriving DecidableEq, Repr

/-- `N_WCACHE_STAT_MAX`. -/
def nWCacheStatMax : ℕ := 32

/-- `WCache`: the entries in use. -/
structure WCache where
  ent : List WCacheEnt
  dynMax : ℕ
deriving DecidableEq, Repr

namespace WCache

/-- The sanity checks of `WCache_LOOKUP_AND_RETURN` and `WCache_UPDATE`. -/
def check (c : WCache) : Except Abort Unit := do
  vgAssert (1 ≤ c.dynMax)
  vgAssert (c.dynMax ≤ nWCacheStatMax)
  vgAssert (c.ent.length ≤ c.dynMax)

/-- `WCache_INIT`. -/
def init (dynMax : ℕ) : Except Abort WCache := do
  vgAssert (1 ≤ dynMax)
  vgAssert (dynMax ≤ nWCacheStatMax)
  return ⟨[], dynMax⟩

/-- The loop of the lookup behind an entry that does not match: a hit moves up by one place. -/
def lookupBehind (arg1 arg2 : UWord) (prev : WCacheEnt) :
    List WCacheEnt → Option (UWord × List WCacheEnt)
  | [] => none
  | e :: es =>
    if e.arg1 = arg1 ∧ e.arg2 = arg2 then some (e.res, e :: prev :: es)
    else (lookupBehind arg1 arg2 e es).map fun (r, es) => (r, prev :: es)

/-- `WCache_LOOKUP_AND_RETURN`: the result, if there is one, and the cache then. -/
def lookup (c : WCache) (arg1 arg2 : UWord) : Except Abort (Option (UWord × WCache)) := do
  c.check
  match c.ent with
  | [] => return none
  | e :: es =>
    if e.arg1 = arg1 ∧ e.arg2 = arg2 then return some (e.res, c)
    else return (lookupBehind arg1 arg2 e es).map fun (r, es) => (r, { c with ent := es })

/-- `WCache_UPDATE`: the new entry comes first; a full cache drops its last. -/
def update (c : WCache) (arg1 arg2 res : UWord) : Except Abort WCache := do
  c.check
  let inUse := if c.ent.length < c.dynMax then c.ent.length + 1 else c.ent.length
  return { c with ent := (⟨arg1, arg2, res⟩ :: c.ent).take inUse }

end WCache

/-- The operations that have a cache. -/
inductive CacheName where
  | addTo
  | delFrom
  | intersect
  | minus
deriving DecidableEq, Repr

/-! ## The universe -/

/-- `WordSet`, a 32 bit handle. -/
abbrev WordSet := ℕ

/-- A pointer to a slot of an `ix2vec` array: which array it points into, and where. -/
structure SlotPtr where
  block : ℕ
  index : ℕ
deriving DecidableEq, Repr

/-- A slot of `ix2vec`: a vector, or what comes next in the chain of dead slots. -/
inductive Slot where
  | vec (wv : WordVec)
  | link (next : Option SlotPtr)
deriving DecidableEq, Repr

/-- The slot points to this vector. -/
def Slot.pointsTo : Slot → WordVec → Bool
  | .vec wv', wv => wv'.ptr = wv.ptr
  | .link _, _ => false

/-- `WordSetU`.  `ix2vec` lists the slots in use, `block` is the array they are in, and `nextPtr`
what the allocator has not given out so far. -/
structure WordSetU where
  vec2ix : WordFM Unit WordVec UWord
  ix2vec : List Slot
  block : ℕ
  ix2vecSize : ℕ
  ix2vecFree : Option SlotPtr
  empty : WordSet
  cache : CacheName → WCache
  nextPtr : ℕ

namespace WordSetU

variable (wsu : WordSetU)

/-- `new_WV_of_size`, the words then stored into the vector, and the check of their number. -/
def newWV (sz : ℕ) (words : List UWord) : Except Abort (WordVec × WordSetU) :=
  if sz < words.length then .error .wildAccess
  else do
    vgAssert (words.length = sz)
    return (⟨wsu.nextPtr, words⟩, { wsu with nextPtr := wsu.nextPtr + 1 })

/-- `ensure_ix2vec_space`.  The new size is an `UInt`; the old slots are copied all the same. -/
def ensureIx2vecSpace : Except Abort WordSetU := do
  vgAssert (wsu.ix2vec.length ≤ wsu.ix2vecSize)
  if wsu.ix2vec.length < wsu.ix2vecSize then return wsu
  else
    let newSz := 2 * wsu.ix2vecSize % 2 ^ 32
    let newSz := if newSz = 0 then 1 else newSz
    if newSz < wsu.ix2vecSize then .error .wildAccess
    else return { wsu with block := wsu.nextPtr, ix2vecSize := newSz, nextPtr := wsu.nextPtr + 1 }

/-- `is_dead`. -/
def isDead : Slot → Bool
  | .link none => true
  | .link (some p) => p.block = wsu.block ∧ 1 ≤ p.index ∧ p.index < wsu.ix2vecSize
  | .vec _ => false

/-- `do_ix2vec`. -/
def doIx2vec (ws : WordSet) : Except Abort WordVec := do
  vgAssert (wsu.ix2vec.length ≤ wsu.ix2vecSize)
  match wsu.ix2vec[ws]? with
  | none => .error .assertion
  | some slot =>
    vgAssert (slot ≠ .link none)
    vgAssert (wsu.isDead slot = false)
    match slot with
    | .vec wv => return wv
    | .link _ => .error .wildAccess

/-- `do_ix2vec_with_dead`. -/
def doIx2vecWithDead (ws : WordSet) : Except Abort (Option WordVec) := do
  vgAssert (wsu.ix2vec.length ≤ wsu.ix2vecSize)
  match wsu.ix2vec[ws]? with
  | none => .error .assertion
  | some slot =>
    if wsu.isDead slot then return none
    else match slot with
      | .vec wv => return some wv
      | .link _ => .error .wildAccess

/-- `add_or_dealloc_WordVec` where a dead slot is taken for the new vector. -/
def reuseSlot (p : SlotPtr) (wvNew : WordVec) : Except Abort (WordSet × WordSetU) := do
  vgAssert (wsu.isDead (.link (some p)))
  match wsu.ix2vec[p.index]? with
  | some (.link next) =>
    vgAssert (wsu.isDead (.link next))
    let (_, vec2ix) ← wsu.vec2ix.addToFM () wvNew p.index
    return (p.index, { wsu with
      ix2vec := wsu.ix2vec.set p.index (.vec wvNew), ix2vecFree := next, vec2ix })
  | _ => .error .assertion

/-- `add_or_dealloc_WordVec` where the new vector gets a new slot. -/
def appendSlot (wvNew : WordVec) : Except Abort (WordSet × WordSetU) := do
  let wsu ← wsu.ensureIx2vecSpace
  vgAssert (wsu.ix2vec.length < wsu.ix2vecSize)
  let ix := wsu.ix2vec.length
  let (_, vec2ix) ← wsu.vec2ix.addToFM () wvNew ix
  return (ix % 2 ^ 32, { wsu with ix2vec := wsu.ix2vec ++ [.vec wvNew], vec2ix })

/-- `add_or_dealloc_WordVec`. -/
def addOrDeallocWordVec (wvNew : WordVec) : Except Abort (WordSet × WordSetU) :=
  match wsu.vec2ix.lookupFM wvNew with
  | some (wvOld, ixOld) => do
    vgAssert (wvOld.ptr ≠ wvNew.ptr)
    vgAssert (wsu.ix2vec[ixOld]?.any (·.pointsTo wvOld))
    return (ixOld % 2 ^ 32, wsu)
  | none =>
    match wsu.ix2vecFree with
    | some p => wsu.reuseSlot p wvNew
    | none => wsu.appendSlot wvNew

/-- Make the set with these words, of which there are `sz`. -/
def intern (sz : ℕ) (words : List UWord) : Except Abort (WordSet × WordSetU) := do
  let (wvNew, wsu) ← wsu.newWV sz words
  wsu.addOrDeallocWordVec wvNew

/-- `HG_(newWordSetU)`. -/
def newWordSetU (cacheSize : ℕ) : Except Abort WordSetU := do
  let cache ← WCache.init cacheSize
  let wsu : WordSetU := ⟨WordFM.newFM cmpWordVecs, [], 0, 0, none, 0, fun _ => cache, 1⟩
  let (empty, wsu) ← wsu.intern 0 []
  return { wsu with empty }

/-- A cache as it is from now on. -/
def setCache (c : CacheName) (cache : WCache) : WordSetU :=
  { wsu with cache := Function.update wsu.cache c cache }

/-- `WCache_LOOKUP_AND_RETURN`, the computation if there is no hit, and `WCache_UPDATE`. -/
def cached (c : CacheName) (arg1 arg2 : UWord) (compute : Except Abort (WordSet × WordSetU)) :
    Except Abort (WordSet × WordSetU) := do
  match ← (wsu.cache c).lookup arg1 arg2 with
  | some (res, cache) => return (res, wsu.setCache c cache)
  | none =>
    let (res, wsu) ← compute
    let cache ← (wsu.cache c).update arg1 arg2 res
    return (res, wsu.setCache c cache)

/-- `(WordSet)(-1)`. -/
def bogus : WordSet := 2 ^ 32 - 1

/-- `HG_(doubletonWS)`. -/
def doubletonWS (w1 w2 : UWord) : Except Abort (WordSet × WordSetU) :=
  if w1 = w2 then wsu.intern 1 [w1]
  else if w1 < w2 then wsu.intern 2 [w1, w2]
  else wsu.intern 2 [w2, w1]

/-- `HG_(addToWS)` where the cache has no result. -/
def addToUncached (ws : WordSet) (w : UWord) : Except Abort (WordSet × WordSetU) := do
  let wv ← wsu.doIx2vec ws
  if w ∈ wv.words then return (ws, wsu)
  else
    let words ← addWord w wv.words
    let (result, wsu) ← wsu.intern (wv.size + 1) words
    vgAssert (result ≠ bogus)
    return (result, wsu)

/-- `HG_(addToWS)`. -/
def addToWS (ws : WordSet) (w : UWord) : Except Abort (WordSet × WordSetU) :=
  wsu.cached .addTo ws w (wsu.addToUncached ws w)

/-- `HG_(delFromWS)` where the cache has no result. -/
def delFromUncached (ws : WordSet) (wv : WordVec) (w : UWord) :
    Except Abort (WordSet × WordSetU) :=
  if w ∈ wv.words then do
    let (result, wsu) ← wsu.intern (wv.size - 1) (wv.words.eraseIdx (wv.words.idxOf w))
    vgAssert (wv.size = 1 → result = wsu.empty)
    return (result, wsu)
  else return (ws, wsu)

/-- `HG_(delFromWS)`. -/
def delFromWS (ws : WordSet) (w : UWord) : Except Abort (WordSet × WordSetU) := do
  let wv ← wsu.doIx2vec ws
  -- special case empty set
  if wv.size = 0 then
    vgAssert (ws = wsu.empty)
    return (ws, wsu)
  else wsu.cached .delFrom ws w (wsu.delFromUncached ws wv w)

/-- The two passes along two vectors. -/
def merge (k : Keep) (ws1 ws2 : WordSet) : Except Abort (ℕ × WordSet × WordSetU) := do
  let wv1 ← wsu.doIx2vec ws1
  let wv2 ← wsu.doIx2vec ws2
  let sz := mergeSize k wv1.words wv2.words
  let (result, wsu) ← wsu.intern sz (mergeWords k wv1.words wv2.words)
  return (sz, result, wsu)

/-- `HG_(unionWS)`. -/
def unionWS (ws1 ws2 : WordSet) : Except Abort (WordSet × WordSetU) := do
  let (_, result, wsu) ← wsu.merge unionKeep ws1 ws2
  return (result, wsu)

/-- `HG_(intersectWS)` and `HG_(minusWS)` where their cache has no result. -/
def mergeUncached (k : Keep) (ws1 ws2 : WordSet) : Except Abort (WordSet × WordSetU) := do
  let (sz, wsNew, wsu) ← wsu.merge k ws1 ws2
  vgAssert (sz = 0 → wsNew = wsu.empty)
  vgAssert (wsNew ≠ bogus)
  return (wsNew, wsu)

/-- `HG_(intersectWS)`. -/
def intersectWS (ws1 ws2 : WordSet) : Except Abort (WordSet × WordSetU) :=
  if ws1 = ws2 then return (ws1, wsu)
  -- both variants of a query are one query
  else if ws1 > ws2 then wsu.cached .intersect ws2 ws1 (wsu.mergeUncached intersectKeep ws2 ws1)
  else wsu.cached .intersect ws1 ws2 (wsu.mergeUncached intersectKeep ws1 ws2)

/-- `HG_(minusWS)`. -/
def minusWS (ws1 ws2 : WordSet) : Except Abort (WordSet × WordSetU) :=
  wsu.cached .minus ws1 ws2 (wsu.mergeUncached minusKeep ws1 ws2)

/-- `HG_(dieWS)` of a live handle other than the empty set's. -/
def retire (ws : WordSet) (wv : WordVec) : Except Abort WordSetU := do
  let (found, vec2ix) ← wsu.vec2ix.delFromFM wv
  -- `wv_ix` keeps its initial -1 if nothing is found
  let wvIx := (found.map Prod.snd).getD (2 ^ 64 - 1)
  vgAssert (wvIx ≠ 0)
  vgAssert (wvIx = ws)
  return { wsu with
    ix2vec := wsu.ix2vec.set ws (.link wsu.ix2vecFree)
    ix2vecFree := some ⟨wsu.block, ws⟩
    vec2ix
    cache := fun c => { wsu.cache c with ent := [] } }

/-- `HG_(dieWS)`. -/
def dieWS (ws : WordSet) : Except Abort WordSetU := do
  match ← wsu.doIx2vecWithDead ws with
  | none => return wsu
  | some wv => if ws = 0 then return wsu else wsu.retire ws wv

end WordSetU

end Valgrind.Helgrind
