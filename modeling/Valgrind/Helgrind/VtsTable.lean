import Valgrind.Core.WordFM
import Valgrind.Foundations.Interning
import Valgrind.Helgrind.Clock

/-!
# Helgrind/VtsTable — `vts_set` and `vts_tab` of `helgrind/libhb_core.c`

Every vector timestamp is kept once, and known by a small number.  `vts_set` finds a timestamp by its
value, `vts_tab` by its number; entries that are not in use are chained through the table.

* `Table` — the set and the table point at each other, and each slot is in use or on the free list;
* `findOrCloneAndAdd_old`, `findOrCloneAndAdd_new` — a timestamp gets the number it has, or that of a
  free slot, or a new one.
-/

namespace Valgrind.Helgrind

open Interning List Function Option Nat VTS WordFM Except

/-! ## The code -/

/-- `VtsID`, a `UInt`. -/
abbrev VtsID := ℕ

/-- `VtsID_INVALID`. -/
def vtsIDInvalid : VtsID := 0xFFFFFFFF

/-- A `VTS*`: where it was allocated, and the timestamp, which is not written to any more.  The
`id` is written to, and kept by address (`VtsTab.id`). -/
structure VTSPtr where
  addr : ℕ
  ts : Clock
deriving DecidableEq

/-- `VTS__cmp_structural`, which compares what two pointers point to; its assertions hold
(`keyOrd_cmpVTS`). -/
def cmpVTS (a b : VTSPtr) : ℤ := (VTS.cmpStructural a.ts.toVTS b.ts.toVTS).toOption.getD 0

/-- `VtsTE`; `link` is `u.freelink` of an entry that is free, and `u.remap` of one that is pruned. -/
structure VtsTE where
  vts : Option VTSPtr
  rc : ℕ
  link : VtsID
deriving DecidableEq

/-- `vts_tab`, `vts_tab_freelist` and `vts_set`, with the `id` of every `VTS` and the address of the
next one. -/
structure VtsTab where
  tab : List VtsTE
  freelist : VtsID
  set : WordFM Unit VTSPtr UWord
  id : ℕ → VtsID
  nextAddr : ℕ

namespace VtsTab

/-- `vts_set_init`, `vts_tab_init`.  `temp_max_sized_VTS` is at address 0. -/
def init : VtsTab where
  tab := []
  freelist := vtsIDInvalid
  set := WordFM.newFM cmpVTS
  id _ := vtsIDInvalid
  nextAddr := 1

/-- `vts_set__find__or__clone_and_add`. -/
def setFindOrCloneAndAdd (t : VtsTab) (cand : VTSPtr) : Except Abort (Bool × VTSPtr × VtsTab) := do
  vgAssert (t.id cand.addr = vtsIDInvalid)
  match t.set.lookupFM cand with
  | some (keyW, valW) =>
    vgAssert (valW = 0)
    vgAssert (keyW.addr ≠ cand.addr)
    return (true, keyW, t)
  | none =>
    let clone : VTSPtr := ⟨t.nextAddr, cand.ts⟩
    vgAssert (clone.addr ≠ cand.addr)
    let (_, set) ← t.set.addToFM () clone 0
    return (false, clone, { t with
      set
      id := update t.id clone.addr (t.id cand.addr)
      nextAddr := t.nextAddr + 1 })

/-- `add_to_free_list`. -/
def addToFreeList (t : VtsTab) (ii : VtsID) : Except Abort VtsTab := do
  let ie ← indexXA t.tab ii
  vgAssert (ie.vts = none)
  vgAssert (ie.rc = 0)
  vgAssert (ie.link = vtsIDInvalid)
  return { t with tab := t.tab.set ii { ie with link := t.freelist }, freelist := ii }

/-- `get_from_free_list`. -/
def getFromFreeList (t : VtsTab) : Except Abort (VtsID × VtsTab) :=
  if t.freelist = vtsIDInvalid then .ok (vtsIDInvalid, t)
  else do
    let ie ← indexXA t.tab t.freelist
    vgAssert (ie.vts = none)
    vgAssert (ie.rc = 0)
    return (t.freelist, { t with freelist := ie.link })

/-- `get_new_VtsID`; the index is cut to 32 bits. -/
def getNewVtsID (t : VtsTab) : Except Abort (VtsID × VtsTab) := do
  let (ii, t) ← t.getFromFreeList
  if ii ≠ vtsIDInvalid then return (ii, t)
  else
    let (n, tab) := addToXA t.tab ⟨none, 0, vtsIDInvalid⟩
    return (n.toNat % 2 ^ 32, { t with tab })

/-- An entry that is in use, for a change of its reference count. -/
def entryInUse (t : VtsTab) (ii : VtsID) : Except Abort (VtsTE × VTSPtr) := do
  let ie ← indexXA t.tab ii
  match ie.vts with
  | none => .error .assertion
  | some vts => return (ie, vts)

/-- `VtsID__rcinc`. -/
def rcinc (t : VtsTab) (ii : VtsID) : Except Abort VtsTab := do
  let (ie, vts) ← t.entryInUse ii
  vgAssert (ie.rc < 2 ^ 64 - 1)
  vgAssert (t.id vts.addr = ii)
  return { t with tab := t.tab.set ii { ie with rc := ie.rc + 1 } }

/-- `VtsID__rcdec`. -/
def rcdec (t : VtsTab) (ii : VtsID) : Except Abort VtsTab := do
  let (ie, vts) ← t.entryInUse ii
  vgAssert (ie.rc > 0)
  vgAssert (t.id vts.addr = ii)
  return { t with tab := t.tab.set ii { ie with rc := ie.rc - 1 } }

/-- The end of `vts_tab__find__or__clone_and_add` for a new timestamp. -/
def install (t : VtsTab) (inTab : VTSPtr) : Except Abort (VtsID × VtsTab) := do
  let (ii, t) ← t.getNewVtsID
  let _ ← indexXA t.tab ii
  return (ii, { t with
    tab := t.tab.set ii ⟨some inTab, 0, vtsIDInvalid⟩
    id := update t.id inTab.addr ii })

/-- `vts_tab__find__or__clone_and_add`, of the timestamp in `temp_max_sized_VTS`. -/
def findOrCloneAndAdd (t : VtsTab) (cand : Clock) : Except Abort (VtsID × VtsTab) := do
  let (alreadyHave, inTab, t) ← t.setFindOrCloneAndAdd ⟨0, cand⟩
  if alreadyHave then
    vgAssert (t.id inTab.addr ≠ vtsIDInvalid)
    let ie ← indexXA t.tab (t.id inTab.addr)
    vgAssert (ie.vts = some inTab)
    return (t.id inTab.addr, t)
  else t.install inTab

/-- `VtsID__to_VTS`. -/
def toVTS (t : VtsTab) (vi : VtsID) : Except Abort VTSPtr := do
  let te ← indexXA t.tab vi
  match te.vts with
  | none => .error .assertion
  | some vts => return vts

/-! ## What is in the table -/

/-- The timestamp of an entry that is in use. -/
def vtsAt (tab : List VtsTE) (i : VtsID) : Option VTSPtr := tab[i]?.bind VtsTE.vts

/-- The reference count of an entry. -/
def rcAt (tab : List VtsTE) (i : VtsID) : ℕ := (tab[i]?.map VtsTE.rc).getD 0

/-- **What an identifier denotes** while it is live. -/
def denotes (t : VtsTab) : Naming VtsID Clock := Option.map VTSPtr.ts ∘ vtsAt t.tab

section Entries

variable {tab : List VtsTE} {i : VtsID} {te : VtsTE} {n : ℕ}

theorem lt_of_vtsAt {p : VTSPtr} (h : vtsAt tab i = some p) : i < tab.length := by
  obtain ⟨te, hte, -⟩ := bind_eq_some_iff.mp h
  exact (List.getElem?_eq_some_iff.mp hte).1

theorem vtsAt_of_getElem? (h : tab[i]? = some te) : vtsAt tab i = te.vts := by
  rw [vtsAt, h, bind_some]

theorem rcAt_of_getElem? (h : tab[i]? = some te) : rcAt tab i = te.rc := by
  rw [rcAt, h]
  rfl

theorem vtsAt_set (h : n < tab.length) (te : VtsTE) :
    vtsAt (tab.set n te) = update (vtsAt tab) n te.vts := read_set (·.bind VtsTE.vts) h te

theorem rcAt_set (h : n < tab.length) (te : VtsTE) :
    rcAt (tab.set n te) = update (rcAt tab) n te.rc :=
  read_set (fun o => (o.map VtsTE.rc).getD 0) h te

theorem vtsAt_append (te : VtsTE) : vtsAt (tab ++ [te]) = update (vtsAt tab) tab.length te.vts :=
  read_append (·.bind VtsTE.vts) te

theorem rcAt_append (te : VtsTE) : rcAt (tab ++ [te]) = update (rcAt tab) tab.length te.rc :=
  read_append (fun o => (o.map VtsTE.rc).getD 0) te

theorem vtsAt_length (tab : List VtsTE) : vtsAt tab tab.length = none := by
  rw [vtsAt, getElem?_eq_none le_rfl, bind_none]

theorem rcAt_length (tab : List VtsTE) : rcAt tab tab.length = 0 := by
  rw [rcAt, getElem?_eq_none le_rfl]
  rfl

end Entries

theorem indexXA_eq_ok {α : Type} {xa : List α} {n : ℕ} {e : α} :
    indexXA xa n = .ok e ↔ xa[n]? = some e := by
  rw [indexXA, if_neg (by omega), Int.toNat_natCast]
  cases xa[n]? <;> simp

variable {t t' : VtsTab} {i ii : VtsID} {p : VTSPtr} {c : Clock} {m : Bindings VTSPtr UWord}

theorem denotes_eq_some : t.denotes i = some c ↔ ∃ p, vtsAt t.tab i = some p ∧ p.ts = c :=
  map_eq_some_iff

theorem denotes_of_update {o : Option VTSPtr} (h : vtsAt t'.tab = update (vtsAt t.tab) i o) :
    t'.denotes = update t.denotes i (o.map VTSPtr.ts) := by
  rw [denotes, h, comp_update]
  rfl

/-! ## The order of the set -/

theorem cmpVTS_eq (a b : VTSPtr) :
    cmpVTS a b = VTS.signOf (VTS.rank a.ts.toVTS) (VTS.rank b.ts.toVTS) := by
  rw [cmpVTS, cmpStructural_eq]
  rfl

/-- **Timestamps are ordered by their ranks.** -/
theorem keyOrd_cmpVTS :
    keyOrd cmpVTS = @compareOn _ _ LinearOrder.toOrd fun p => VTS.rank p.ts.toVTS := by
  funext a b
  rw [keyOrd, cmpVTS_eq]
  unfold compareOn
  rcases lt_trichotomy (rank a.ts.toVTS) (rank b.ts.toVTS) with h | h | h
  · rw [signOf_eq_neg_one.mpr h, compare_lt_iff_lt.mpr h]
    rfl
  · rw [signOf_eq_zero.mpr h, compare_eq_iff_eq.mpr h]
    rfl
  · rw [signOf_eq_one.mpr h, compare_gt_iff_gt.mpr h]
    rfl

instance : Std.TransCmp (keyOrd cmpVTS) := by
  rw [keyOrd_cmpVTS]
  infer_instance

theorem keyOrd_cmpVTS_eq_iff {a b : VTSPtr} : keyOrd cmpVTS a b = .eq ↔ a.ts = b.ts := by
  rw [keyOrd_cmpVTS]
  unfold compareOn
  rw [compare_eq_iff_eq, rank_inj]
  refine ⟨fun h => ?_, fun h => by rw [h]⟩
  rw [Clock.ext_iff_indexAt]
  exact fun t => congrArg (indexAtLoop t) h

/-! ## The invariant -/

/-- The set has the timestamps that are in use, each by its value. -/
def Indexes (m : Bindings VTSPtr UWord) (vts : VtsID → Option VTSPtr) : Prop :=
  ∀ key p v, m key = some (p, v) ↔ v = 0 ∧ p.ts = key.ts ∧ ∃ i, vts i = some p

/-- The slots of a list are chained, from a first one on. -/
def Chain (tab : List VtsTE) : VtsID → List ℕ → Prop
  | p, [] => p = vtsIDInvalid
  | p, k :: ks => p = k ∧ k ≠ vtsIDInvalid ∧ ∃ te, tab[k]? = some te ∧ Chain tab te.link ks

/-- Other slots may change. -/
theorem Chain.congr {tab tab' : List VtsTE} :
    ∀ {p : VtsID} {ks : List ℕ}, Chain tab p ks → (∀ k ∈ ks, tab'[k]? = tab[k]?) →
      Chain tab' p ks
  | _, [], h, _ => h
  | _, k :: ks, ⟨hp, hk, te, hte, hchain⟩, hsame => by
    obtain ⟨hsame_k, hsame⟩ := forall_mem_cons.mp hsame
    exact ⟨hp, hk, te, hsame_k.trans hte, hchain.congr hsame⟩

/-- **The table is in order**: what is in use is in the set and knows its place, and the other slots
are on the free list, each once, and not referred to. -/
structure Table (t : VtsTab) : Prop where
  index : ∃ m, WordFM.Represents cmpVTS t.set m ∧ Indexes m (vtsAt t.tab)
  id_eq : ∀ i p, vtsAt t.tab i = some p → t.id p.addr = i
  addr : ∀ i p, vtsAt t.tab i = some p → 0 < p.addr ∧ p.addr < t.nextAddr
  next_pos : 0 < t.nextAddr
  temp : t.id 0 = vtsIDInvalid
  chain : ∃ ks, Chain t.tab t.freelist ks ∧ ks.Nodup
    ∧ ∀ i, i ∈ ks ↔ i < t.tab.length ∧ vtsAt t.tab i = none
  free_rc : ∀ i, vtsAt t.tab i = none → rcAt t.tab i = 0
  size : t.tab.length ≤ 2 ^ 32

theorem table_init : init.Table where
  index := ⟨_, represents_newFM cmpVTS, fun _ _ _ =>
    iff_of_false nofun fun ⟨_, _, _, h⟩ => nomatch h⟩
  id_eq := nofun
  addr := nofun
  next_pos := one_pos
  temp := rfl
  chain := ⟨[], rfl, nodup_nil, fun _ => iff_of_false nofun fun h => nomatch h.1⟩
  free_rc _ _ := rfl
  size := zero_le

namespace Table

variable (h : t.Table)
include h

/-- Entries with the same timestamp are one. -/
theorem eq_of_ts {j : VtsID} {q : VTSPtr} (hp : vtsAt t.tab i = some p) (hq : vtsAt t.tab j = some q)
    (hts : p.ts = q.ts) : i = j := by
  obtain ⟨m, -, hm⟩ := h.index
  have hpq := ((hm p p 0).mpr ⟨rfl, rfl, i, hp⟩).symm.trans ((hm p q 0).mpr ⟨rfl, hts.symm, j, hq⟩)
  obtain rfl := (Prod.mk.inj (some.inj hpq)).1
  exact (h.id_eq i p hp).symm.trans (h.id_eq j p hq)

/-- **No timestamp has two identifiers.** -/
theorem canonical : Canonical t.denotes := by
  intro i j c hi hj
  obtain ⟨p, hp, hc⟩ := denotes_eq_some.mp hi
  obtain ⟨q, hq, hc'⟩ := denotes_eq_some.mp hj
  exact h.eq_of_ts hp hq (hc.trans hc'.symm)

end Table

theorem lt_of_denotes (hc : t.denotes i = some c) : i < t.tab.length := by
  obtain ⟨p, hp, -⟩ := denotes_eq_some.mp hc
  exact lt_of_vtsAt hp

/-- `VtsID__to_VTS` of a live identifier… -/
theorem toVTS_eq (hc : t.denotes i = some c) : ∃ p, t.toVTS i = .ok p ∧ p.ts = c := by
  obtain ⟨p, hp, hts⟩ := denotes_eq_some.mp hc
  obtain ⟨te, hte, hvts⟩ := bind_eq_some_iff.mp hp
  refine ⟨p, ?_, hts⟩
  rw [toVTS, indexXA_eq_ok.mpr hte, ok_bind, hvts]
  rfl

/-- …and of no other. -/
theorem denotes_of_toVTS (h : t.toVTS i = .ok p) : t.denotes i = some p.ts := by
  obtain ⟨te, hte, hvts⟩ := bind_eq_ok.mp h
  refine denotes_eq_some.mpr ⟨p, ?_, rfl⟩
  rw [vtsAt_of_getElem? (indexXA_eq_ok.mp hte)]
  split at hvts
  · exact nomatch hvts
  · next hp => exact hp.trans (congrArg some (ok.inj hvts))

/-! ## A timestamp gets its identifier -/

theorem Indexes.add {vts : VtsID → Option VTSPtr} (h : Indexes m vts)
    (hnew : m p = none) (hii : vts ii = none) :
    Indexes (m.add (keyOrd cmpVTS) p 0) (update vts ii (some p)) := by
  intro key q v
  have hother : ∀ i q, vts i = some q → q.ts ≠ p.ts := fun i q hq hts =>
    nomatch hnew.symm.trans ((h p q 0).mpr ⟨rfl, hts, i, hq⟩)
  have hex : (∃ i, update vts ii (some p) i = some q) ↔ q = p ∨ ∃ i, vts i = some q := by
    constructor
    · rintro ⟨i, hi⟩
      rw [update_apply] at hi
      split_ifs at hi
      · exact .inl (some.inj hi).symm
      · exact .inr ⟨i, hi⟩
    · rintro (rfl | ⟨i, hi⟩)
      · exact ⟨ii, update_self ..⟩
      · refine ⟨i, (update_of_ne ?_ ..).trans hi⟩
        rintro rfl
        exact nomatch hii.symm.trans hi
  simp only [Bindings.add, hnew, keyOrd_cmpVTS_eq_iff, hex]
  split_ifs with hkey
  · simp only [map_none, getD_none, some.injEq, Prod.mk.injEq]
    constructor
    · rintro ⟨rfl, rfl⟩
      exact ⟨rfl, hkey.symm, .inl rfl⟩
    · rintro ⟨rfl, hts, rfl | ⟨i, hi⟩⟩
      · exact ⟨rfl, rfl⟩
      · exact absurd (hts.trans hkey) (hother i q hi)
  · rw [h key q v]
    refine and_congr_right fun _ => and_congr_right fun hts => ⟨.inr, fun hq => ?_⟩
    refine hq.resolve_left ?_
    rintro rfl
    exact hkey hts.symm

/-- **The set finds a live timestamp**, and its identifier is returned. -/
theorem findOrCloneAndAdd_old (h : t.Table) (hc : t.denotes i = some c) (hi : i ≠ vtsIDInvalid) :
    t.findOrCloneAndAdd c = .ok (i, t) := by
  obtain ⟨p, hp, hts⟩ := denotes_eq_some.mp hc
  obtain ⟨te, hte, hvts⟩ := bind_eq_some_iff.mp hp
  obtain ⟨m, hfm, hm⟩ := h.index
  have hfound : t.set.lookupFM ⟨0, c⟩ = some (p, 0) :=
    (lookupFM_eq hfm _).trans ((hm _ p 0).mpr ⟨rfl, hts, i, hp⟩)
  have hset : t.setFindOrCloneAndAdd ⟨0, c⟩ = .ok (true, p, t) := by
    rw [setFindOrCloneAndAdd, vgAssert_bind h.temp, hfound]
    dsimp only
    rw [vgAssert_bind rfl, vgAssert_bind (h.addr i p hp).1.ne']
    rfl
  rw [findOrCloneAndAdd, hset, ok_bind]
  dsimp only
  rw [if_pos rfl, h.id_eq i p hp, vgAssert_bind hi, indexXA_eq_ok.mpr hte, ok_bind,
    vgAssert_bind hvts]
  rfl

/-- The set gets a copy of a timestamp it does not have. -/
theorem setFindOrCloneAndAdd_new (h : t.Table) (hne : ∀ i, t.denotes i ≠ some c) :
    ∃ m fm, Indexes m (vtsAt t.tab) ∧ m ⟨t.nextAddr, c⟩ = none
      ∧ WordFM.Represents cmpVTS fm (m.add (keyOrd cmpVTS) ⟨t.nextAddr, c⟩ 0)
      ∧ t.setFindOrCloneAndAdd ⟨0, c⟩ = .ok (false, ⟨t.nextAddr, c⟩, { t with
        set := fm
        id := update t.id t.nextAddr vtsIDInvalid
        nextAddr := t.nextAddr + 1 }) := by
  obtain ⟨m, hfm, hm⟩ := h.index
  have hnone : ∀ a, m ⟨a, c⟩ = none := fun a => by
    refine eq_none_iff_forall_ne_some.mpr fun ⟨p, v⟩ hp => ?_
    obtain ⟨-, hts, i, hi⟩ := (hm _ p v).mp hp
    exact hne i (denotes_eq_some.mpr ⟨p, hi, hts⟩)
  obtain ⟨fm, hadd, hfm', -⟩ := addToFM_spec hfm () ⟨t.nextAddr, c⟩ 0
  refine ⟨m, fm, hm, hnone _, hfm', ?_⟩
  rw [setFindOrCloneAndAdd, vgAssert_bind h.temp, lookupFM_eq hfm, hnone]
  dsimp only
  rw [vgAssert_bind h.next_pos.ne', hadd, ok_bind, h.temp]
  rfl

/-- What a new entry leaves as it was. -/
structure Put (t : VtsTab) (c : Clock) (ii : VtsID) (t' : VtsTab) : Prop where
  dead : vtsAt t.tab ii = none
  vts : vtsAt t'.tab = update (vtsAt t.tab) ii (some ⟨t.nextAddr, c⟩)
  rc : rcAt t'.tab = rcAt t.tab
  id : t'.id = update t.id t.nextAddr ii
  next : t'.nextAddr = t.nextAddr + 1

/-- A new entry, in a slot that was free, keeps the table in order. -/
theorem Put.table (hput : Put t c ii t') (h : t.Table)
    (hm : Indexes m (vtsAt t.tab)) (hnew : m ⟨t.nextAddr, c⟩ = none)
    (hfm : WordFM.Represents cmpVTS t'.set (m.add (keyOrd cmpVTS) ⟨t.nextAddr, c⟩ 0))
    (hchain : ∃ ks, Chain t'.tab t'.freelist ks ∧ ks.Nodup
      ∧ ∀ i, i ∈ ks ↔ i < t'.tab.length ∧ vtsAt t'.tab i = none)
    (hsize : t'.tab.length ≤ 2 ^ 32) : t'.Table where
  index := ⟨_, hfm, hput.vts ▸ hm.add hnew hput.dead⟩
  id_eq i p hp := by
    rw [hput.vts, update_apply] at hp
    rw [hput.id]
    split_ifs at hp with hi
    · rw [← some.inj hp, update_self, hi]
    · rw [update_of_ne (h.addr i p hp).2.ne, h.id_eq i p hp]
  addr i p hp := by
    rw [hput.vts, update_apply] at hp
    rw [hput.next]
    split_ifs at hp
    · rw [← some.inj hp]
      exact ⟨h.next_pos, lt_succ_self _⟩
    · exact ⟨(h.addr i p hp).1, (h.addr i p hp).2.trans (lt_succ_self _)⟩
  next_pos := hput.next ▸ succ_pos _
  temp := by rw [hput.id, update_of_ne h.next_pos.ne, h.temp]
  chain := hchain
  free_rc i hi := by
    rw [hput.vts, update_apply] at hi
    split_ifs at hi
    rw [hput.rc, h.free_rc i hi]
  size := hsize

/-- A free slot is used again. -/
theorem findOrCloneAndAdd_reuse (h : t.Table) (hne : ∀ i, t.denotes i ≠ some c)
    (hfree : t.freelist ≠ vtsIDInvalid) :
    ∃ t', t.findOrCloneAndAdd c = .ok (t.freelist, t') ∧ t'.Table ∧ Put t c t.freelist t'
      ∧ t'.tab.length = t.tab.length := by
  obtain ⟨m, fm, hm, hnew, hfm, hset⟩ := setFindOrCloneAndAdd_new h hne
  obtain ⟨ks, hchain, hnodup, hks⟩ := h.chain
  cases ks with
  | nil => exact absurd hchain hfree
  | cons k ks =>
    obtain ⟨hk, -, te, hte, hchain⟩ := hchain
    obtain ⟨hnot, hnodup⟩ := nodup_cons.mp hnodup
    have hlt : t.freelist < t.tab.length := hk ▸ (List.getElem?_eq_some_iff.mp hte).1
    have hdead : vtsAt t.tab t.freelist = none := hk ▸ ((hks k).mp mem_cons_self).2
    rw [← hk] at hte hnot hks
    have hvts : te.vts = none := vtsAt_of_getElem? hte ▸ hdead
    have hrc : te.rc = 0 := rcAt_of_getElem? hte ▸ h.free_rc _ hdead
    let t' : VtsTab := {
      tab := t.tab.set t.freelist ⟨some ⟨t.nextAddr, c⟩, 0, vtsIDInvalid⟩
      freelist := te.link
      set := fm
      id := update (update t.id t.nextAddr vtsIDInvalid) t.nextAddr t.freelist
      nextAddr := t.nextAddr + 1 }
    have hput : Put t c t.freelist t' := by
      refine ⟨hdead, vtsAt_set hlt _, ?_, update_idem .., rfl⟩
      rw [rcAt_set hlt]
      exact update_eq_self_iff.mpr (h.free_rc _ hdead).symm
    have hlen : t'.tab.length = t.tab.length := length_set ..
    refine ⟨t', ?_, hput.table h hm hnew hfm ⟨ks, ?_, hnodup, fun i => ?_⟩ (hlen ▸ h.size), hput,
      hlen⟩
    · rw [findOrCloneAndAdd, hset, ok_bind]
      dsimp only
      rw [if_neg (by decide), install, getNewVtsID, getFromFreeList, if_neg hfree,
        indexXA_eq_ok.mpr hte, ok_bind, vgAssert_bind hvts, vgAssert_bind hrc, pure_eq_ok, ok_bind]
      dsimp only
      rw [if_pos hfree, pure_eq_ok, ok_bind]
      dsimp only
      rw [indexXA_eq_ok.mpr hte, ok_bind]
      rfl
    · refine hchain.congr fun j hj => getElem?_set_ne ?_
      rintro rfl
      exact hnot hj
    · rw [hlen, hput.vts, update_apply]
      have hi := hks i
      rw [mem_cons] at hi
      split_ifs with hif
      · exact iff_of_false (hif ▸ hnot) fun h => nomatch h.2
      · exact (or_iff_right hif).symm.trans hi

/-- With an empty free list, every slot is in use. -/
theorem Table.all_used (h : t.Table) (hfree : t.freelist = vtsIDInvalid) (hi : i < t.tab.length) :
    vtsAt t.tab i ≠ none := by
  obtain ⟨ks, hchain, -, hks⟩ := h.chain
  cases ks with
  | nil => exact fun hnone => not_mem_nil ((hks i).mpr ⟨hi, hnone⟩)
  | cons k ks => exact absurd (hchain.1.symm.trans hfree) hchain.2.1

section

variable (h : t.Table) (hne : ∀ i, t.denotes i ≠ some c) (hfree : t.freelist = vtsIDInvalid)
include h hne hfree

/-- With an empty free list, the new entry is put at the end of the table, as far as the end has an
identifier. -/
theorem findOrCloneAndAdd_append {n : ℕ} (hn : t.tab.length % 2 ^ 32 = n) :
    ∃ m t', Indexes m (vtsAt t.tab) ∧ m ⟨t.nextAddr, c⟩ = none
      ∧ WordFM.Represents cmpVTS t'.set (m.add (keyOrd cmpVTS) ⟨t.nextAddr, c⟩ 0)
      ∧ t.findOrCloneAndAdd c = .ok (n, t')
      ∧ vtsAt t'.tab = update (update (vtsAt t.tab) t.tab.length none) n (some ⟨t.nextAddr, c⟩)
      ∧ rcAt t'.tab = update (update (rcAt t.tab) t.tab.length 0) n 0
      ∧ t'.id = update t.id t.nextAddr n ∧ t'.nextAddr = t.nextAddr + 1
      ∧ t'.tab.length = t.tab.length + 1 ∧ t'.freelist = vtsIDInvalid := by
  obtain ⟨m, fm, hm, hnew, hfm, hset⟩ := setFindOrCloneAndAdd_new h hne
  have hin : n < (t.tab ++ [(⟨none, 0, vtsIDInvalid⟩ : VtsTE)]).length := by
    rw [length_append, ← hn]
    exact lt_succ_of_le (mod_le _ _)
  refine ⟨m, {
    tab := (t.tab ++ [(⟨none, 0, vtsIDInvalid⟩ : VtsTE)]).set n
      ⟨some ⟨t.nextAddr, c⟩, 0, vtsIDInvalid⟩
    freelist := t.freelist
    set := fm
    id := update (update t.id t.nextAddr vtsIDInvalid) t.nextAddr n
    nextAddr := t.nextAddr + 1 }, hm, hnew, hfm, ?_, (vtsAt_set hin _).trans ?_,
    (rcAt_set hin _).trans ?_, update_idem .., rfl, ?_, hfree⟩
  · rw [findOrCloneAndAdd, hset, ok_bind]
    dsimp only
    rw [if_neg (by decide), install, getNewVtsID, getFromFreeList, if_pos hfree, ok_bind]
    dsimp only
    rw [if_neg (not_not.mpr rfl)]
    simp only [addToXA, sizeXA, Int.toNat_natCast, hn, pure_eq_ok, ok_bind]
    rw [indexXA_eq_ok.mpr (getElem?_eq_getElem hin), ok_bind]
  · rw [vtsAt_append]
  · rw [rcAt_append]
  · exact (length_set ..).trans length_append

/-- The table grows. -/
theorem findOrCloneAndAdd_grow (hlt : t.tab.length < 2 ^ 32) :
    ∃ t', t.findOrCloneAndAdd c = .ok (t.tab.length, t') ∧ t'.Table ∧ Put t c t.tab.length t'
      ∧ t'.tab.length = t.tab.length + 1 ∧ t'.freelist = vtsIDInvalid := by
  obtain ⟨m, t', hm, hnew, hfm, hrun, hvts, hrc, hid, hnext, hlen, hfree'⟩ :=
    findOrCloneAndAdd_append h hne hfree (mod_eq_of_lt hlt)
  rw [update_idem] at hvts hrc
  have hput : Put t c t.tab.length t' :=
    ⟨vtsAt_length _, hvts, hrc.trans (update_eq_self_iff.mpr (rcAt_length _).symm), hid, hnext⟩
  refine ⟨t', hrun, hput.table h hm hnew hfm ⟨[], hfree', nodup_nil, fun i => ?_⟩
    (hlen ▸ hlt), hput, hlen, hfree'⟩
  refine iff_of_false not_mem_nil fun ⟨hi, hnone⟩ => ?_
  rw [hput.vts, update_apply] at hnone
  split_ifs at hnone with hif
  rw [hlen] at hi
  exact h.all_used hfree (lt_of_le_of_ne (Nat.lt_succ_iff.mp hi) hif) hnone

/-- **The table outgrows its identifiers**: the entry after the last is put in place of the first. -/
theorem findOrCloneAndAdd_wrap (hlen : t.tab.length = 2 ^ 32) :
    ∃ t', t.findOrCloneAndAdd c = .ok (0, t') ∧ t'.denotes 0 = some c ∧ rcAt t'.tab 0 = 0 := by
  obtain ⟨m, t', -, -, -, hrun, hvts, hrc, -⟩ :=
    findOrCloneAndAdd_append h hne hfree (n := 0) (by rw [hlen, mod_self])
  exact ⟨t', hrun, denotes_eq_some.mpr ⟨_, by rw [hvts, update_self], rfl⟩, by
    rw [hrc, update_self]⟩

end

theorem Put.interned (hput : Put t c ii t') (hne : ∀ i, t.denotes i ≠ some c) :
    Interned t.denotes c ii t'.denotes := by
  rw [denotes_of_update hput.vts]
  refine .new ?_ hne
  rw [denotes, comp_apply, hput.dead]
  rfl

/-- There is a slot for one more timestamp. -/
def Room (t : VtsTab) : Prop := t.freelist ≠ vtsIDInvalid ∨ t.tab.length < 2 ^ 32 - 1

/-- **A timestamp gets its identifier**: the one it has, or that of a slot that is not in use. -/
theorem findOrCloneAndAdd_spec (h : t.Table) (hsize : t.tab.length ≤ 2 ^ 32 - 1) (hroom : t.Room)
    (c : Clock) : ∃ ii t', t.findOrCloneAndAdd c = .ok (ii, t') ∧ t'.Table
      ∧ t'.tab.length ≤ 2 ^ 32 - 1 ∧ Interned t.denotes c ii t'.denotes
      ∧ rcAt t'.tab = rcAt t.tab := by
  by_cases hex : ∃ i, t.denotes i = some c
  · obtain ⟨i, hi⟩ := hex
    have hne : i ≠ vtsIDInvalid :=
      ((lt_of_denotes hi).trans_le (hsize.trans (show 2 ^ 32 - 1 ≤ vtsIDInvalid by decide))).ne
    exact ⟨i, t, findOrCloneAndAdd_old h hi hne, h, hsize, .old hi, rfl⟩
  · have hne : ∀ i, t.denotes i ≠ some c := fun i hi => hex ⟨i, hi⟩
    by_cases hfree : t.freelist = vtsIDInvalid
    · have hlt : t.tab.length < 2 ^ 32 - 1 := hroom.resolve_left (not_not.mpr hfree)
      obtain ⟨t', hrun, ht', hput, hlen, -⟩ := findOrCloneAndAdd_grow h hne hfree (by omega)
      exact ⟨_, t', hrun, ht', by omega, hput.interned hne, hput.rc⟩
    · obtain ⟨t', hrun, ht', hput, hlen⟩ := findOrCloneAndAdd_reuse h hne hfree
      exact ⟨_, t', hrun, ht', hlen.trans_le hsize, hput.interned hne, hput.rc⟩

/-! ## Reference counts -/

theorem entryInUse_eq_ok {te : VtsTE} (h : t.entryInUse ii = .ok (te, p)) :
    t.tab[ii]? = some te ∧ te.vts = some p := by
  obtain ⟨ie, hie, h⟩ := bind_eq_ok.mp h
  cases hvts : ie.vts with
  | none =>
    rw [hvts] at h
    exact nomatch h
  | some vts =>
    rw [hvts] at h
    cases h
    exact ⟨indexXA_eq_ok.mp hie, hvts⟩

/-- The counts of entries in use may change. -/
theorem Table.congr (h : t.Table) {tab : List VtsTE} (hvts : vtsAt tab = vtsAt t.tab)
    (hlen : tab.length = t.tab.length) (hfree : ∀ k, vtsAt t.tab k = none → tab[k]? = t.tab[k]?) :
    ({ t with tab } : VtsTab).Table where
  index := hvts ▸ h.index
  id_eq := hvts ▸ h.id_eq
  addr := hvts ▸ h.addr
  next_pos := h.next_pos
  temp := h.temp
  chain := by
    obtain ⟨ks, hchain, hnodup, hks⟩ := h.chain
    exact ⟨ks, hchain.congr fun k hk => hfree k ((hks k).mp hk).2, hnodup, hvts ▸ hlen ▸ hks⟩
  free_rc i hi := by
    rw [rcAt, hfree i (hvts ▸ hi)]
    exact h.free_rc i (hvts ▸ hi)
  size := hlen.trans_le h.size

/-- An entry that is in use may change its count. -/
theorem Table.setRc (h : t.Table) {te : VtsTE} (hentry : t.entryInUse ii = .ok (te, p)) (n : ℕ) :
    let tab := t.tab.set ii { te with rc := n }
    ({ t with tab } : VtsTab).Table ∧ vtsAt tab = vtsAt t.tab
      ∧ rcAt tab = update (rcAt t.tab) ii n ∧ tab.length = t.tab.length
      ∧ rcAt t.tab ii = te.rc ∧ vtsAt t.tab ii = some p := by
  obtain ⟨hte, huse⟩ := entryInUse_eq_ok hentry
  have hlt := (List.getElem?_eq_some_iff.mp hte).1
  have hat : vtsAt t.tab ii = some p := (vtsAt_of_getElem? hte).trans huse
  have hvts : vtsAt (t.tab.set ii { te with rc := n }) = vtsAt t.tab := by
    rw [vtsAt_set hlt]
    exact update_eq_self_iff.mpr (huse.trans hat.symm)
  have hrc := rcAt_set hlt { te with rc := n }
  refine ⟨h.congr hvts (length_set ..) fun k hk => getElem?_set_ne ?_, hvts, hrc,
    length_set .., rcAt_of_getElem? hte, hat⟩
  rintro rfl
  exact nomatch hat.symm.trans hk

/-- **A count goes up**, that of a live identifier… -/
theorem rcinc_spec (h : t.Table) (hrun : t.rcinc ii = .ok t') : t'.Table
    ∧ vtsAt t'.tab = vtsAt t.tab ∧ rcAt t'.tab = update (rcAt t.tab) ii (rcAt t.tab ii + 1)
    ∧ t'.tab.length = t.tab.length ∧ vtsAt t.tab ii ≠ none := by
  obtain ⟨⟨te, p⟩, hentry, hrun⟩ := bind_eq_ok.mp hrun
  simp only [vgAssert_bind_eq_ok] at hrun
  obtain rfl := ok.inj hrun.2.2
  obtain ⟨htable, hvts, hrc, hlen, hold, huse⟩ := h.setRc hentry (te.rc + 1)
  exact ⟨htable, hvts, hold ▸ hrc, hlen, huse ▸ nofun⟩

/-- …or down, if it is not zero. -/
theorem rcdec_spec (h : t.Table) (hrun : t.rcdec ii = .ok t') : t'.Table
    ∧ vtsAt t'.tab = vtsAt t.tab ∧ rcAt t'.tab = update (rcAt t.tab) ii (rcAt t.tab ii - 1)
    ∧ t'.tab.length = t.tab.length ∧ 0 < rcAt t.tab ii := by
  obtain ⟨⟨te, p⟩, hentry, hrun⟩ := bind_eq_ok.mp hrun
  simp only [vgAssert_bind_eq_ok] at hrun
  obtain rfl := ok.inj hrun.2.2
  obtain ⟨htable, hvts, hrc, hlen, hold, -⟩ := h.setRc hentry (te.rc - 1)
  exact ⟨htable, hvts, hold ▸ hrc, hlen, hold ▸ hrun.1⟩

end VtsTab

end Valgrind.Helgrind
