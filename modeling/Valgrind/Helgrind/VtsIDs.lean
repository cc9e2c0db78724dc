import Valgrind.Helgrind.VtsTable

/-!
# Helgrind/VtsIDs — identifiers of timestamps, their caches, and their collection

The operations on `VtsID`s of `helgrind/libhb_core.c`: comparison and join, each with a direct-mapped
cache of results, the tick, reference counts, and `vts_tab__do_GC`, which takes back the slots of
timestamps that nobody refers to, and now and then renames all identifiers after it has removed
threads that are very dead from their timestamps.

`cmpLEQ_spec`, `join2_spec`: a cached result is the one that would be computed.
-/

namespace Valgrind.Helgrind

open Interning Function Option

/-! ## The code -/

/-- An entry of `cmpLEQ_cache`. -/
structure CmpLEQEnt where
  vi1 : VtsID
  vi2 : VtsID
  leq : Bool

/-- An entry of `join2_cache`. -/
structure Join2Ent where
  vi1 : VtsID
  vi2 : VtsID
  res : VtsID

/-- `ROL32`. -/
def rol32 (w n : ℕ) : ℕ := (w <<< n ||| w >>> (32 - n)) % 2 ^ 32

/-- `hash_VtsIDs`. -/
def hashVtsIDs (vi1 vi2 : VtsID) (nTab : ℕ) : ℕ := (rol32 vi1 19 ^^^ rol32 vi2 13) % nTab

/-- `N_CMPLEQ_CACHE`. -/
def nCmpLEQCache : ℕ := 1023

/-- `N_JOIN2_CACHE`. -/
def nJoin2Cache : ℕ := 1023

/-- `HG_(clo_vts_pruning)`. -/
inductive VtsPruning where
  | never
  | auto
  | always
deriving DecidableEq, Repr

/-- A change of a reference count: an identifier is stored somewhere, or removed from there. -/
inductive RcChange where
  | inc (ii : VtsID)
  | dec (ii : VtsID)
deriving DecidableEq, Repr

/-- The table with what is kept beside it.  `places` has the identifiers that are stored outside the
cache of the shadow memory: in its lines, in threads and in synchronisation objects. -/
structure VtsIDs where
  cloVtsPruning : VtsPruning
  table : VtsTab
  /-- `cmpLEQ_cache`, by index. -/
  cmpLEQCache : ℕ → CmpLEQEnt
  /-- `join2_cache`, by index. -/
  join2Cache : ℕ → Join2Ent
  /-- `verydead_thread_table_not_pruned`. -/
  verydeadNotPruned : List ThrID
  /-- `verydead_thread_table`. -/
  verydead : List ThrID
  pruningAutoCtr : ℕ
  vtsNextGCAt : ℕ
  places : List VtsID

namespace VtsIDs

/-- `VtsID__invalidate_caches`. -/
def invalidateCaches (s : VtsIDs) : VtsIDs :=
  { s with
    cmpLEQCache := fun _ => ⟨vtsIDInvalid, vtsIDInvalid, false⟩
    join2Cache := fun _ => ⟨vtsIDInvalid, vtsIDInvalid, vtsIDInvalid⟩ }

/-- The part of `libhb_init` that concerns timestamps. -/
def init (cloVtsPruning : VtsPruning) : VtsIDs where
  cloVtsPruning
  table := .init
  cmpLEQCache _ := ⟨vtsIDInvalid, vtsIDInvalid, false⟩
  join2Cache _ := ⟨vtsIDInvalid, vtsIDInvalid, vtsIDInvalid⟩
  verydeadNotPruned := []
  verydead := []
  pruningAutoCtr := 0
  vtsNextGCAt := 1000
  places := []

/-- A timestamp is looked up, or added. -/
def intern (s : VtsIDs) (cand : Clock) : Except Abort (VtsID × VtsIDs) := do
  let (ii, table) ← s.table.findOrCloneAndAdd cand
  return (ii, { s with table })

/-- `VtsID__cmpLEQ_WRK`, past the lookup in the cache. -/
def cmpLEQMiss (s : VtsIDs) (vi1 vi2 : VtsID) : Except Abort (Bool × VtsIDs) := do
  let v1 ← s.table.toVTS vi1
  let v2 ← s.table.toVTS vi2
  let diff ← VTS.cmpLEQ v1.ts.toVTS v2.ts.toVTS
  let leq : Bool := diff = 0
  let hash := hashVtsIDs vi1 vi2 nCmpLEQCache
  return (leq, { s with cmpLEQCache := update s.cmpLEQCache hash ⟨vi1, vi2, leq⟩ })

/-- `VtsID__cmpLEQ`. -/
def cmpLEQ (s : VtsIDs) (vi1 vi2 : VtsID) : Except Abort (Bool × VtsIDs) :=
  if vi1 = vi2 then .ok (true, s)
  else
    let e := s.cmpLEQCache (hashVtsIDs vi1 vi2 nCmpLEQCache)
    if e.vi1 = vi1 ∧ e.vi2 = vi2 then .ok (e.leq, s) else s.cmpLEQMiss vi1 vi2

/-- `VtsID__join2_WRK`, past the lookup in the cache. -/
def join2Miss (s : VtsIDs) (vi1 vi2 : VtsID) : Except Abort (VtsID × VtsIDs) := do
  let vts1 ← s.table.toVTS vi1
  let vts2 ← s.table.toVTS vi2
  let cand ← Clock.ofVTS (← VTS.join Clock.tempMaxSizedVTS vts1.ts.toVTS vts2.ts.toVTS)
  let (res, s) ← s.intern cand
  let hash := hashVtsIDs vi1 vi2 nJoin2Cache
  return (res, { s with join2Cache := update s.join2Cache hash ⟨vi1, vi2, res⟩ })

/-- `VtsID__join2`. -/
def join2 (s : VtsIDs) (vi1 vi2 : VtsID) : Except Abort (VtsID × VtsIDs) :=
  if vi1 = vi2 then .ok (vi1, s)
  else
    let e := s.join2Cache (hashVtsIDs vi1 vi2 nJoin2Cache)
    if e.vi1 = vi1 ∧ e.vi2 = vi2 then .ok (e.res, s) else s.join2Miss vi1 vi2

/-- `VtsID__mk_Singleton`. -/
def mkSingleton (s : VtsIDs) (thr : ThrID) (tym : Fin (2 ^ 46)) : Except Abort (VtsID × VtsIDs) := do
  s.intern (← Clock.mkSingleton thr tym)

/-- `VtsID__tick`. -/
def tick (s : VtsIDs) (vi : VtsID) (idx : ThrID) : Except Abort (VtsID × VtsIDs) := do
  let vts ← s.table.toVTS vi
  s.intern (← vts.ts.tick idx)

/-- `VtsID__indexAt`. -/
def indexAt (s : VtsIDs) (vi : VtsID) (idx : ThrID) : Except Abort ℕ := do
  let vts ← s.table.toVTS vi
  return vts.ts.indexAt idx

/-- `VtsID__rcinc` for an identifier that is stored, `VtsID__rcdec` for one that is removed. -/
def rcChange (s : VtsIDs) : RcChange → Except Abort VtsIDs
  | .inc ii => do return { s with table := ← s.table.rcinc ii, places := ii :: s.places }
  | .dec ii => do return { s with table := ← s.table.rcdec ii, places := s.places.erase ii }

end VtsIDs

/-! ### The collection -/

/-- The checks of what `VG_(delFromFM)` returns for a timestamp of the table. -/
def checkDeleted (old : Option (VTSPtr × UWord)) (vts : VTSPtr) : Except Abort Unit :=
  match old with
  | none => .error .assertion
  | some (oldK, oldV) => do
    vgAssert (oldV = 0)
    vgAssert (oldK.addr = vts.addr)

/-- An entry in `vts_tab__do_GC`; also counts those that are freed. -/
def VtsTab.gcEntry (st : VtsTab × ℕ) (i : ℕ) : Except Abort (VtsTab × ℕ) := do
  let (t, nFreed) := st
  let te ← indexXA t.tab i
  match te.vts with
  | none =>
    vgAssert (te.rc = 0)
    return (t, nFreed)
  | some vts =>
    if te.rc > 0 then return (t, nFreed)
    else
      vgAssert (t.id vts.addr = i)
      let (old, set) ← t.set.delFromFM vts
      checkDeleted old vts
      vgAssert (te.link = vtsIDInvalid)
      let t ← ({ t with set, tab := t.tab.set i { te with vts := none } } : VtsTab).addToFreeList i
      return (t, nFreed + 1)

/-- `verydead_thread_table_sort_and_check`. -/
def verydeadSortAndCheck (thrids : List ThrID) : Except Abort (List ThrID) := do
  let sorted := thrids.mergeSort fun a b => a ≤ b
  vgAssert (sorted.IsChain (· < ·))
  return sorted

/-- The tables of `vts_tab__do_GC` while it prunes. -/
structure Pruning where
  old : VtsTab
  newTab : List VtsTE
  newSet : WordFM Unit VTSPtr UWord
  /-- `new_VtsID_ctr`. -/
  newVtsIDCtr : VtsID

namespace Pruning

/-- A pruned timestamp is found in the new table, or added to it. -/
def findOrAdd (p : Pruning) (i : ℕ) (pruned : Clock) : Except Abort (VtsID × Pruning) :=
  let newVts : VTSPtr := ⟨p.old.nextAddr, pruned⟩
  let old : VtsTab := { p.old with
    id := update p.old.id newVts.addr 0
    nextAddr := p.old.nextAddr + 1 }
  match p.newSet.lookupFM newVts with
  | some (identicalVersion, valW) => do
    vgAssert (valW = 0)
    vgAssert (identicalVersion.addr ≠ newVts.addr)
    vgAssert (old.id identicalVersion.addr ≠ vtsIDInvalid)
    return (old.id identicalVersion.addr, { p with old })
  | none => do
    let old : VtsTab := { old with id := update old.id newVts.addr p.newVtsIDCtr }
    let newVtsIDCtr : VtsID := (p.newVtsIDCtr + 1) % 2 ^ 32
    let (b, newSet) ← p.newSet.addToFM () newVts 0
    vgAssert (¬ b)
    let (j, newTab) := addToXA p.newTab ⟨some newVts, 0, vtsIDInvalid⟩
    vgAssert (j ≤ i)
    vgAssert (j.toNat = (newVtsIDCtr + (2 ^ 32 - 1)) % 2 ^ 32)
    return (old.id newVts.addr, { old, newTab, newSet, newVtsIDCtr })

/-- An entry of the old table. -/
def entry (del : List ThrID) (p : Pruning) (i : ℕ) : Except Abort Pruning := do
  let oldTe ← indexXA p.old.tab i
  if oldTe.rc = 0 then
    vgAssert (oldTe.vts = none)
    return p
  else
    vgAssert (oldTe.link = vtsIDInvalid)
    match oldTe.vts with
    | none => .error .assertion
    | some oldVts =>
      vgAssert (p.old.id oldVts.addr = i)
      let pruned ← oldVts.ts.subtract del
      let (old, set) ← p.old.set.delFromFM oldVts
      checkDeleted old oldVts
      let (remap, p) ← ({ p with old := { p.old with set } } : Pruning).findOrAdd i pruned
      return { p with old := { p.old with tab := p.old.tab.set i ⟨none, oldTe.rc, remap⟩ } }

/-- The new table. -/
def newTable (p : Pruning) : VtsTab :=
  { p.old with tab := p.newTab, set := p.newSet, freelist := vtsIDInvalid }

end Pruning

/-- `remap_VtsID`, with the tables. -/
def remapVtsID (oldTab newTab : List VtsTE) (ii : VtsID) :
    Except Abort (VtsID × List VtsTE × List VtsTE) := do
  let oldTe ← indexXA oldTab ii
  let oldTab := oldTab.set ii { oldTe with rc := (oldTe.rc + (2 ^ 64 - 1)) % 2 ^ 64 }
  let newTe ← indexXA newTab oldTe.link
  let newTab := newTab.set oldTe.link { newTe with rc := (newTe.rc + 1) % 2 ^ 64 }
  return (oldTe.link, oldTab, newTab)

/-- All the places that have an identifier. -/
def remapPlaces : List VtsID → List VtsTE → List VtsTE →
    Except Abort (List VtsID × List VtsTE × List VtsTE)
  | [], oldTab, newTab => .ok ([], oldTab, newTab)
  | ii :: places, oldTab, newTab => do
    let (newId, oldTab, newTab) ← remapVtsID oldTab newTab ii
    let (places, oldTab, newTab) ← remapPlaces places oldTab newTab
    return (newId :: places, oldTab, newTab)

/-- The sanity checks at the end of pruning: the table and the set point at each other. -/
def VtsTab.sanityCheck (t : VtsTab) : Except Abort Unit := do
  vgAssert (t.tab.length = t.set.sizeFM)
  let (bindings, _) ← t.set.iterate
  bindings.forM fun b => do
    vgAssert (b.1.addr ≠ 0)
    vgAssert (b.2 = 0)
    vgAssert (t.id b.1.addr ≠ vtsIDInvalid)
    let te ← indexXA t.tab (t.id b.1.addr)
    vgAssert (te.vts = some b.1)
  (List.range t.tab.length).forM fun i => do
    let (te, vts) ← t.entryInUse i
    vgAssert (t.id vts.addr = i)
    vgAssert (te.rc > 0)
    vgAssert (te.link = vtsIDInvalid)

namespace VtsIDs

/-- The pruning part of `vts_tab__do_GC`. -/
def prune (s : VtsIDs) : Except Abort VtsIDs := do
  let del ← verydeadSortAndCheck s.verydeadNotPruned
  let p ← (List.range s.table.tab.length).foldlM (Pruning.entry del)
    ⟨s.table, [], WordFM.newFM cmpVTS, 0⟩
  let verydead ← verydeadSortAndCheck (s.verydead ++ del)
  vgAssert (p.old.set.sizeFM = 0)
  let (places, oldTab, newTab) ← remapPlaces s.places p.old.tab p.newTab
  vgAssert (∀ te ∈ oldTab, te.vts = none ∧ te.rc = 0)
  let table : VtsTab := { p.newTable with tab := newTab }
  table.sanityCheck
  return { s with table, verydead, verydeadNotPruned := [], places }

/-- Whether to prune, and the counter from which this is decided. -/
def doPruning (s : VtsIDs) : Bool × ℕ :=
  match s.cloVtsPruning with
  | .never => (false, s.pruningAutoCtr)
  | .auto =>
    let ctr := (s.pruningAutoCtr + 1) % 2 ^ 32
    (ctr % 5 = 0, ctr)
  | .always => (true, s.pruningAutoCtr)

/-- `vts_tab__do_GC`; the changes are those that `zsm_flush_cache` makes. -/
def doGC (s : VtsIDs) (flush : List RcChange) : Except Abort VtsIDs := do
  vgAssert (s.table.freelist = vtsIDInvalid)
  let s ← flush.foldlM rcChange s.invalidateCaches
  let nTab := s.table.tab.length
  let (table, nFreed) ← (List.range nTab).foldlM VtsTab.gcEntry (s.table, 0)
  vgAssert (nFreed ≤ nTab)
  let nLive := nTab - nFreed
  let (doPruning, pruningAutoCtr) := s.doPruning
  let s := { s with table, pruningAutoCtr, vtsNextGCAt := max (2 * nLive) nTab }
  if ¬ doPruning then return s
  else if s.verydeadNotPruned.length = 0 then return s
  else s.prune

/-! ## The invariant -/

/-- What the identifiers denote. -/
def names (s : VtsIDs) : Naming VtsID Clock := s.table.denotes

/-- The entries of `cmpLEQ_cache` that can be found are right. -/
def LEQRight (m : Naming VtsID Clock) (e : CmpLEQEnt) : Prop :=
  e.vi1 ≠ e.vi2 → ∃ a b, m e.vi1 = some a ∧ m e.vi2 = some b ∧ e.leq = decide (a ≤ b)

/-- The entries of `join2_cache` that can be found are right. -/
def JoinRight (m : Naming VtsID Clock) (e : Join2Ent) : Prop :=
  e.vi1 ≠ e.vi2 → ∃ a b c, m e.vi1 = some a ∧ m e.vi2 = some b ∧ Clock.join2 a b = .ok c
    ∧ m e.res = some c

theorem LEQRight.mono {m m' : Naming VtsID Clock} {e : CmpLEQEnt} (h : LEQRight m e)
    (hkeeps : Keeps m m') : LEQRight m' e := fun hne =>
  let ⟨a, b, ha, hb, hleq⟩ := h hne
  ⟨a, b, hkeeps ha, hkeeps hb, hleq⟩

theorem JoinRight.mono {m m' : Naming VtsID Clock} {e : Join2Ent} (h : JoinRight m e)
    (hkeeps : Keeps m m') : JoinRight m' e := fun hne =>
  let ⟨a, b, c, ha, hb, hc, hres⟩ := h hne
  ⟨a, b, c, hkeeps ha, hkeeps hb, hc, hkeeps hres⟩

/-- **The identifiers are in order**: so are the table and the caches, and references are counted. -/
structure Inv (s : VtsIDs) : Prop where
  table : s.table.Table
  size : s.table.tab.length ≤ 2 ^ 32 - 1
  rc_eq : ∀ i, VtsTab.rcAt s.table.tab i = s.places.count i
  placed : ∀ i ∈ s.places, ∃ c, s.names i = some c
  fits : s.places.length < 2 ^ 64
  leq : ∀ h, LEQRight s.names (s.cmpLEQCache h)
  join : ∀ h, JoinRight s.names (s.join2Cache h)

theorem inv_init (cloVtsPruning : VtsPruning) : (init cloVtsPruning).Inv where
  table := VtsTab.table_init
  size := zero_le
  rc_eq _ := rfl
  placed := nofun
  fits := by simp [init]
  leq _ hne := absurd rfl hne
  join _ hne := absurd rfl hne

variable {s s' : VtsIDs} {vi vi1 vi2 ii : VtsID} {a b c : Clock}

/-- What an operation other than the changes of counts and the collection leaves alone. -/
structure Frame (s s' : VtsIDs) : Prop where
  places : s'.places = s.places
  dead : s'.verydeadNotPruned = s.verydeadNotPruned

theorem Frame.refl (s : VtsIDs) : Frame s s := ⟨rfl, rfl⟩

/-- **A call gives the identifier of a timestamp**, or fails as the computation of it does. -/
def Gives (s : VtsIDs) (call : Except Abort (VtsID × VtsIDs)) : Except Abort Clock → Prop
  | .error e => call = .error e
  | .ok c => ∃ ii s', call = .ok (ii, s') ∧ s'.Inv ∧ Interned s.names c ii s'.names ∧ Frame s s'

theorem intern_spec (h : s.Inv) (hroom : s.table.Room) (c : Clock) :
    s.Gives (s.intern c) (.ok c) := by
  obtain ⟨ii, t', hrun, ht', hsize, hint, hrc⟩ :=
    VtsTab.findOrCloneAndAdd_spec h.table h.size hroom c
  refine ⟨ii, { s with table := t' }, by rw [intern, hrun]; rfl, ?_, hint, rfl, rfl⟩
  refine ⟨ht', hsize, fun i => ?_, fun i hi => ?_, h.fits, fun k => (h.leq k).mono hint.keeps,
    fun k => (h.join k).mono hint.keeps⟩
  · exact (congrFun hrc i).trans (h.rc_eq i)
  · obtain ⟨a, ha⟩ := h.placed i hi
    exact ⟨a, hint.keeps ha⟩

/-- What is computed first may fail. -/
theorem Gives.bind {call : Clock → Except Abort (VtsID × VtsIDs)}
    (hcall : ∀ c, s.Gives (call c) (.ok c))
    (want : Except Abort Clock) : s.Gives (want >>= call) want := by
  cases want with
  | error e => rfl
  | ok c => exact hcall c

theorem mkSingleton_spec (h : s.Inv) (hroom : s.table.Room) (thr : ThrID) (tym : Fin (2 ^ 46)) :
    s.Gives (s.mkSingleton thr tym) (Clock.mkSingleton thr tym) :=
  Gives.bind (intern_spec h hroom) _

theorem tick_spec (h : s.Inv) (hroom : s.table.Room) (ha : s.names vi = some a) (idx : ThrID) :
    s.Gives (s.tick vi idx) (a.tick idx) := by
  obtain ⟨p, hp, rfl⟩ := VtsTab.toVTS_eq ha
  rw [tick, hp, ok_bind]
  exact Gives.bind (intern_spec h hroom) _

theorem indexAt_spec (ha : s.names vi = some a) (idx : ThrID) :
    s.indexAt vi idx = .ok (a.indexAt idx) := by
  obtain ⟨p, hp, rfl⟩ := VtsTab.toVTS_eq ha
  rw [indexAt, hp]
  rfl

/-! ## The caches -/

section

variable (h : s.Inv) (ha : s.names vi1 = some a) (hb : s.names vi2 = some b)
include h ha hb

/-- Another identifier has another timestamp. -/
theorem Inv.ne_of_ne (hne : vi1 ≠ vi2) : a ≠ b := by
  rintro rfl
  exact hne (h.table.canonical ha hb)

theorem cmpLEQMiss_spec :
    ∃ s', s.cmpLEQMiss vi1 vi2 = .ok (decide (a ≤ b), s') ∧ s'.Inv ∧ s'.names = s.names
      ∧ Frame s s' := by
  obtain ⟨p, hp, hpa⟩ := VtsTab.toVTS_eq ha
  obtain ⟨q, hq, hqb⟩ := VtsTab.toVTS_eq hb
  obtain ⟨diff, hdiff, hzero, -⟩ := VTS.cmpLEQ_spec a.toVTS_sane b.toVTS_sane
  have hleq : decide (diff = 0) = decide (a ≤ b) := decide_eq_decide.mpr hzero
  let hash := hashVtsIDs vi1 vi2 nCmpLEQCache
  refine ⟨{ s with cmpLEQCache := update s.cmpLEQCache hash ⟨vi1, vi2, decide (a ≤ b)⟩ },
    ?_, { h with leq := fun k => ?_ }, rfl, rfl, rfl⟩
  · rw [cmpLEQMiss, hp, ok_bind, hq, ok_bind, hpa, hqb, hdiff, ok_bind, hleq]
    rfl
  · dsimp only
    rw [update_apply]
    split_ifs
    · exact fun _ => ⟨a, b, ha, hb, rfl⟩
    · exact h.leq k

/-- **`VtsID__cmpLEQ` decides the order**, with its cache or without. -/
theorem cmpLEQ_spec :
    ∃ s', s.cmpLEQ vi1 vi2 = .ok (decide (a ≤ b), s') ∧ s'.Inv ∧ s'.names = s.names
      ∧ Frame s s' := by
  rw [cmpLEQ]
  dsimp only
  split_ifs with heq hhit
  · obtain rfl := some.inj (ha.symm.trans (heq ▸ hb))
    exact ⟨s, by rw [decide_eq_true le_rfl], h, rfl, .refl s⟩
  · obtain ⟨a', b', ha', hb', hleq⟩ := h.leq (hashVtsIDs vi1 vi2 nCmpLEQCache)
      (by rw [hhit.1, hhit.2]; exact heq)
    rw [hhit.1, ha] at ha'
    rw [hhit.2, hb] at hb'
    obtain rfl := some.inj ha'
    obtain rfl := some.inj hb'
    exact ⟨s, by rw [hleq], h, rfl, .refl s⟩
  · exact cmpLEQMiss_spec h ha hb

end

section

variable (h : s.Inv) (hroom : s.table.Room) (ha : s.names vi1 = some a) (hb : s.names vi2 = some b)
include h hroom ha hb

theorem join2Miss_spec (hne : vi1 ≠ vi2) : s.Gives (s.join2Miss vi1 vi2) (Clock.join2 a b) := by
  obtain ⟨p, hp, hpa⟩ := VtsTab.toVTS_eq ha
  obtain ⟨q, hq, hqb⟩ := VtsTab.toVTS_eq hb
  have hjoin : a.join2 b = (VTS.join Clock.tempMaxSizedVTS a.toVTS b.toVTS >>= Clock.ofVTS) :=
    if_neg (h.ne_of_ne ha hb hne)
  have hmiss : s.join2Miss vi1 vi2 = (a.join2 b >>= fun cand => do
      let (res, s) ← s.intern cand
      let hash := hashVtsIDs vi1 vi2 nJoin2Cache
      return (res, { s with join2Cache := update s.join2Cache hash ⟨vi1, vi2, res⟩ })) := by
    rw [join2Miss, hp, ok_bind, hq, ok_bind, hpa, hqb, hjoin]
    cases VTS.join Clock.tempMaxSizedVTS a.toVTS b.toVTS <;> rfl
  rw [hmiss]
  cases hc : a.join2 b with
  | error e => rfl
  | ok c =>
    obtain ⟨ii, s', hrun, hinv, hint, hframe⟩ := intern_spec h hroom c
    let cache := update s'.join2Cache (hashVtsIDs vi1 vi2 nJoin2Cache) ⟨vi1, vi2, ii⟩
    refine ⟨ii, { s' with join2Cache := cache }, by rw [ok_bind, hrun]; rfl, ?_, hint,
      hframe.places, hframe.dead⟩
    refine { hinv with join := fun k => ?_ }
    dsimp only [cache]
    rw [update_apply]
    split_ifs
    · exact fun _ => ⟨a, b, c, hint.keeps ha, hint.keeps hb, hc, hint.denotes⟩
    · exact hinv.join k

/-- **`VtsID__join2` gives the identifier of the join**, with its cache or without. -/
theorem join2_spec : s.Gives (s.join2 vi1 vi2) (Clock.join2 a b) := by
  rw [join2]
  dsimp only
  split_ifs with heq hhit
  · obtain rfl := some.inj (ha.symm.trans (heq ▸ hb))
    rw [Clock.join2, if_pos rfl]
    exact ⟨vi1, s, rfl, h, .old ha, .refl s⟩
  · obtain ⟨a', b', c, ha', hb', hc, hres⟩ := h.join (hashVtsIDs vi1 vi2 nJoin2Cache)
      (by rw [hhit.1, hhit.2]; exact heq)
    rw [hhit.1, ha] at ha'
    rw [hhit.2, hb] at hb'
    obtain rfl := some.inj ha'
    obtain rfl := some.inj hb'
    rw [hc]
    exact ⟨_, s, rfl, h, .old hres, .refl s⟩
  · exact join2Miss_spec h hroom ha hb heq

end

end VtsIDs

end Valgrind.Helgrind
