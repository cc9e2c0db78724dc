import Valgrind.Foundations.Interning
import Valgrind.Helgrind.WordSet

/-!
# Helgrind/WordSetU — the handles of a universe of word sets over whole runs

A universe **denotes** a set for each live handle.  Every operation gives the handle of its result,
as `Interning` has it: the one the set has, or one that is dead before.  What the caches remember
stays right because handles keep their meaning until one dies, and then the caches are emptied.

* `addOrDeallocWordVec_spec` — a vector gets its handle, in one of three ways;
* `step_spec` — one operation;
* `wordSets_exact` — runs, as long as the table of slots does not outgrow its 32 bit size;
* `wordSets_overflow` — a run after which it does.
-/

namespace Valgrind.Helgrind

open Interning Refinement List Function Option Nat WordFM WCache

namespace WordSetU

variable {wsu wsu' : WordSetU} {ws : WordSet} {S : Finset UWord} {wv : WordVec}
  {slots : List Slot} {m : Bindings WordVec UWord} {vecs : WordSet → Option WordVec}

/-! ## What handles denote -/

/-- The vector in a slot, if there is one. -/
def Slot.vec? : Slot → Option WordVec
  | .vec wv => some wv
  | .link _ => none

/-- The vector of a live handle. -/
def vecAt (slots : List Slot) (ws : WordSet) : Option WordVec := slots[ws]?.bind Slot.vec?

/-- **What a live handle denotes.** -/
def denotes (wsu : WordSetU) : Naming WordSet (Finset UWord) :=
  Option.map (fun wv => wv.words.toFinset) ∘ vecAt wsu.ix2vec

theorem vecAt_eq_some : vecAt slots ws = some wv ↔ slots[ws]? = some (.vec wv) := by
  rw [vecAt, bind_eq_some_iff]
  constructor
  · rintro ⟨slot, hslot, hvec⟩
    cases slot with
    | vec wv' => rwa [← some.inj hvec]
    | link next => exact nomatch hvec
  · exact fun h => ⟨_, h, rfl⟩

theorem lt_of_vecAt (h : vecAt slots ws = some wv) :
    ws < slots.length := (List.getElem?_eq_some_iff.mp (vecAt_eq_some.mp h)).1

theorem vecAt_set (h : ws < slots.length) (slot : Slot) :
    vecAt (slots.set ws slot) = update (vecAt slots) ws (Slot.vec? slot) :=
  read_set (·.bind Slot.vec?) h slot

theorem vecAt_append (slots : List Slot) (wv : WordVec) :
    vecAt (slots ++ [.vec wv]) = update (vecAt slots) slots.length (some wv) :=
  read_append (·.bind Slot.vec?) _

theorem denotes_of_update {o : Option WordVec}
    (h : vecAt wsu'.ix2vec = update (vecAt wsu.ix2vec) ws o) :
    wsu'.denotes = update wsu.denotes ws (o.map fun wv => wv.words.toFinset) := by
  rw [denotes, h, comp_update]
  rfl

/-! ## The table of vectors -/

/-- The map finds the slot of every vector in the table, by its words. -/
def Indexes (m : Bindings WordVec UWord) (vecs : WordSet → Option WordVec) : Prop :=
  ∀ key wv ws, m key = some (wv, ws) ↔ vecs ws = some wv ∧ wv.words = key.words

theorem Indexes.add
    (h : Indexes m vecs) (hnew : m wv = none) (hws : vecs ws = none) :
    Indexes (m.add (keyOrd cmpWordVecs) wv ws) (update vecs ws (some wv)) := by
  intro key wv' ws'
  simp only [Bindings.add, hnew, update_apply, keyOrd_cmpWordVecs_eq_iff]
  have hfree : ∀ x, vecs ws' = some x → ws' ≠ ws := by
    rintro x hx rfl
    cases hws.symm.trans hx
  split_ifs with hkey heq heq
  · simp only [map_none, getD_none, some.injEq, Prod.mk.injEq]
    exact ⟨fun h => ⟨h.1, h.1 ▸ hkey.symm⟩, fun h => ⟨h.1, heq.symm⟩⟩
  · simp only [map_none, getD_none, some.injEq, Prod.mk.injEq]
    refine ⟨fun h => absurd h.2.symm heq, fun hold => ?_⟩
    cases hnew.symm.trans ((h wv wv' ws').mpr ⟨hold.1, hold.2.trans hkey⟩)
  · rw [h]
    refine ⟨fun h => absurd heq (hfree _ h.1), fun h => ?_⟩
    exact absurd (by rw [some.inj h.1, h.2]) hkey
  · exact h key wv' ws'

theorem Indexes.del
    (h : Indexes m vecs) (hws : vecs ws = some wv) :
    Indexes (m.del (keyOrd cmpWordVecs) wv) (update vecs ws none) := by
  intro key wv' ws'
  simp only [Bindings.del, update_apply, keyOrd_cmpWordVecs_eq_iff]
  have hown : m wv = some (wv, ws) := (h wv wv ws).mpr ⟨hws, rfl⟩
  split_ifs with hkey heq heq
  · simp
  · refine iff_of_false (by simp) fun hold => heq ?_
    have hsame := hown.symm.trans ((h wv wv' ws').mpr ⟨hold.1, hold.2.trans hkey⟩)
    exact (Prod.mk.inj (some.inj hsame)).2.symm
  · rw [h]
    refine iff_of_false (fun h => hkey ?_) (by simp)
    rw [← h.2, some.inj (h.1.symm.trans (heq ▸ hws))]
  · exact h key wv' ws'

/-- The dead slots that are reached from a pointer. -/
def Chain (block : ℕ) (slots : List Slot) : Option SlotPtr → List ℕ → Prop
  | none, [] => True
  | some p, k :: ks =>
    p = ⟨block, k⟩ ∧ 1 ≤ k ∧ ∃ next, slots[k]? = some (.link next) ∧ Chain block slots next ks
  | _, _ => False

theorem Chain.exists_link {block : ℕ} :
    ∀ {p : Option SlotPtr} {ks : List ℕ}, Chain block slots p ks →
      ∀ k ∈ ks, ∃ next, slots[k]? = some (.link next)
  | none, [], _ => nofun
  | some _, _ :: _, ⟨_, _, next, hslot, hchain⟩ =>
    List.forall_mem_cons.mpr ⟨⟨next, hslot⟩, hchain.exists_link⟩

/-- Other slots may change. -/
theorem Chain.congr {block : ℕ} {slots' : List Slot} :
    ∀ {p : Option SlotPtr} {ks : List ℕ}, Chain block slots p ks →
      (∀ k ∈ ks, slots'[k]? = slots[k]?) → Chain block slots' p ks
  | none, [], _, _ => trivial
  | some _, k :: ks, ⟨hp, hk, next, hslot, hchain⟩, hsame => by
    obtain ⟨hsame_k, hsame⟩ := forall_mem_cons.mp hsame
    exact ⟨hp, hk, next, hsame_k.trans hslot, hchain.congr hsame⟩

/-- **The table is in order**: sorted vectors that the map finds, and a chain of dead slots. -/
structure Table (wsu : WordSetU) : Prop where
  index : ∃ m, WordFM.Represents cmpWordVecs wsu.vec2ix m ∧ Indexes m (vecAt wsu.ix2vec)
  sorted : ∀ ws wv, vecAt wsu.ix2vec ws = some wv → wv.words.Pairwise (· < ·)
  ptr_lt : ∀ ws wv, vecAt wsu.ix2vec ws = some wv → wv.ptr < wsu.nextPtr
  chain : ∃ ks, Chain wsu.block wsu.ix2vec wsu.ix2vecFree ks ∧ ks.Nodup
  used_le : wsu.ix2vec.length ≤ wsu.ix2vecSize
  used_le_max : wsu.ix2vec.length ≤ 2 ^ 31

/-- **No set has two handles.** -/
theorem Table.canonical (h : wsu.Table) : Canonical wsu.denotes := by
  intro i j S hi hj
  obtain ⟨wv, hwv, rfl⟩ := map_eq_some_iff.mp hi
  obtain ⟨wv', hwv', heq⟩ := map_eq_some_iff.mp hj
  obtain ⟨m, -, hm⟩ := h.index
  have hwords := eq_of_toFinset_eq (h.sorted _ _ hwv') (h.sorted _ _ hwv) heq
  have hsame := ((hm wv wv i).mpr ⟨hwv, rfl⟩).symm.trans ((hm wv wv' j).mpr ⟨hwv', hwords⟩)
  exact (Prod.mk.inj (some.inj hsame)).2

/-- A live handle is below `(WordSet)(-1)`. -/
theorem Table.lt_of_denotes (h : wsu.Table) (hS : wsu.denotes ws = some S) : ws < 2 ^ 31 := by
  obtain ⟨wv, hwv, -⟩ := map_eq_some_iff.mp hS
  exact (lt_of_vecAt hwv).trans_le h.used_le_max

/-- A live handle has its vector. -/
theorem Table.doIx2vec (h : wsu.Table) (hwv : vecAt wsu.ix2vec ws = some wv) :
    wsu.doIx2vec ws = .ok wv := by
  rw [WordSetU.doIx2vec, vgAssert_bind h.used_le, vecAt_eq_some.mp hwv]
  rfl

/-- There is a slot for one more set. -/
def Room (wsu : WordSetU) : Prop := wsu.ix2vecFree ≠ none ∨ wsu.ix2vec.length < 2 ^ 31

/-- The pointer to a chained slot looks dead. -/
theorem Table.isDead_of_chain (h : wsu.Table) {p : Option SlotPtr} {ks : List ℕ}
    (hp : Chain wsu.block wsu.ix2vec p ks) : wsu.isDead (.link p) = true := by
  match p, ks, hp with
  | none, [], _ => rfl
  | some p, k :: ks, ⟨hp, hk, next, hslot, _⟩ =>
    have hlt := (List.getElem?_eq_some_iff.mp hslot).1
    subst hp
    exact decide_eq_true ⟨rfl, hk, hlt.trans_le h.used_le⟩

/-! ## A vector gets its handle -/

/-- The size of the array once it has a slot more. -/
def grownSize (wsu : WordSetU) : ℕ :=
  if wsu.ix2vec.length < wsu.ix2vecSize then wsu.ix2vecSize else max 1 (2 * wsu.ix2vecSize)

/-- Below the limit, the array grows as it should. -/
theorem ensureIx2vecSpace_spec (h : wsu.ix2vec.length ≤ wsu.ix2vecSize)
    (hlt : wsu.ix2vec.length < 2 ^ 31) :
    ∃ block nextPtr, wsu.ensureIx2vecSpace
        = .ok { wsu with block, nextPtr, ix2vecSize := wsu.grownSize }
      ∧ wsu.nextPtr ≤ nextPtr ∧ wsu.ix2vec.length < wsu.grownSize := by
  rw [ensureIx2vecSpace, vgAssert_bind h, grownSize]
  split_ifs with hroom
  · exact ⟨wsu.block, wsu.nextPtr, rfl, le_rfl, hroom⟩
  · have hfull : wsu.ix2vecSize = wsu.ix2vec.length := le_antisymm (not_lt.mp hroom) h
    have hmod : 2 * wsu.ix2vecSize % 2 ^ 32 = 2 * wsu.ix2vecSize :=
      mod_eq_of_lt (by omega)
    have hsz : (if 2 * wsu.ix2vecSize = 0 then 1 else 2 * wsu.ix2vecSize)
        = max 1 (2 * wsu.ix2vecSize) := by
      split_ifs <;> omega
    refine ⟨wsu.nextPtr, wsu.nextPtr + 1, ?_, by omega, by omega⟩
    simp only [hmod, hsz]
    exact if_neg (by omega)

/-- Once the array has `2 ^ 31` slots and all are in use, the new array is too small for them. -/
theorem ensureIx2vecSpace_overflow (h : wsu.ix2vec.length = 2 ^ 31)
    (hsize : wsu.ix2vecSize = 2 ^ 31) : wsu.ensureIx2vecSpace = .error .wildAccess := by
  rw [ensureIx2vecSpace, h, hsize]
  rfl

/-- One slot changes. -/
theorem Table.put (h : wsu.Table) {o : Option WordVec}
    (hvecs : vecAt wsu'.ix2vec = update (vecAt wsu.ix2vec) ws o)
    (hindex : ∃ m, WordFM.Represents cmpWordVecs wsu'.vec2ix m ∧ Indexes m (vecAt wsu'.ix2vec))
    (hsorted : ∀ wv ∈ o, wv.words.Pairwise (· < ·)) (hptr : ∀ wv ∈ o, wv.ptr < wsu'.nextPtr)
    (hnext : wsu.nextPtr ≤ wsu'.nextPtr)
    (hchain : ∃ ks, Chain wsu'.block wsu'.ix2vec wsu'.ix2vecFree ks ∧ ks.Nodup)
    (hused : wsu'.ix2vec.length ≤ wsu'.ix2vecSize) (hmax : wsu'.ix2vec.length ≤ 2 ^ 31) :
    wsu'.Table := by
  refine ⟨hindex, fun i x hx => ?_, fun i x hx => ?_, hchain, hused, hmax⟩
  · rw [hvecs, update_apply] at hx
    split_ifs at hx
    · exact hsorted x hx
    · exact h.sorted i x hx
  · rw [hvecs, update_apply] at hx
    split_ifs at hx
    · exact hptr x hx
    · exact (h.ptr_lt i x hx).trans_le hnext

section

variable (h : wsu.Table) {m : Bindings WordVec UWord}
  (hfm : WordFM.Represents cmpWordVecs wsu.vec2ix m) (hm : Indexes m (vecAt wsu.ix2vec))
  {wv : WordVec} (hsorted : wv.words.Pairwise (· < ·)) (hptr : wv.ptr < wsu.nextPtr)

include h hfm hm hsorted hptr

/-- A dead slot is taken. -/
theorem reuseSlot_spec {p : SlotPtr} (hfree : wsu.ix2vecFree = some p) (hnew : m wv = none) :
    ∃ wsu', wsu.reuseSlot p wv = .ok (p.index, wsu') ∧ wsu'.Table
      ∧ vecAt wsu.ix2vec p.index = none
      ∧ vecAt wsu'.ix2vec = update (vecAt wsu.ix2vec) p.index (some wv)
      ∧ wsu'.empty = wsu.empty ∧ wsu'.cache = wsu.cache := by
  obtain ⟨ks, hchain, hnodup⟩ := h.chain
  rw [hfree] at hchain
  cases ks with
  | nil => exact hchain.elim
  | cons k ks =>
    have hdead := h.isDead_of_chain hchain
    obtain ⟨rfl, hk, next, hslot, hchain⟩ := hchain
    have hlt := (List.getElem?_eq_some_iff.mp hslot).1
    have hnone : vecAt wsu.ix2vec k = none := by rw [vecAt, hslot]; rfl
    obtain ⟨fm', hadd, hfm', -⟩ := addToFM_spec hfm () wv k
    have hvecs := vecAt_set hlt (.vec wv)
    refine ⟨{ wsu with
      ix2vec := wsu.ix2vec.set k (.vec wv), ix2vecFree := next, vec2ix := fm' }, ?_, ?_, hnone,
      hvecs, rfl, rfl⟩
    · rw [reuseSlot, vgAssert_bind hdead]
      simp only [hslot, vgAssert_bind (h.isDead_of_chain hchain), hadd]
      rfl
    · obtain ⟨hnot, hnodup⟩ := nodup_cons.mp hnodup
      refine h.put (o := some wv) hvecs ⟨_, hfm', ?_⟩ (by simpa using hsorted) (by simpa using hptr)
        le_rfl ⟨ks, hchain.congr ?_, hnodup⟩ ?_ ?_
      · exact hvecs ▸ hm.add hnew hnone
      · intro j hj
        exact getElem?_set_ne fun heq : k = j => hnot (heq ▸ hj)
      · exact (length_set ..).trans_le h.used_le
      · exact (length_set ..).trans_le h.used_le_max

/-- A new slot is taken. -/
theorem appendSlot_spec (hfree : wsu.ix2vecFree = none) (hlt : wsu.ix2vec.length < 2 ^ 31)
    (hnew : m wv = none) :
    ∃ wsu', wsu.appendSlot wv = .ok (wsu.ix2vec.length, wsu') ∧ wsu'.Table
      ∧ wsu'.ix2vec = wsu.ix2vec ++ [.vec wv] ∧ wsu'.ix2vecSize = wsu.grownSize
      ∧ wsu'.ix2vecFree = none ∧ wsu'.empty = wsu.empty ∧ wsu'.cache = wsu.cache := by
  obtain ⟨block, nextPtr, hens, hnext, hgrown⟩ := ensureIx2vecSpace_spec h.used_le hlt
  obtain ⟨fm', hadd, hfm', -⟩ := addToFM_spec hfm () wv wsu.ix2vec.length
  have hnone : vecAt wsu.ix2vec wsu.ix2vec.length = none := by
    rw [vecAt, getElem?_eq_none le_rfl]
    rfl
  have hvecs := vecAt_append wsu.ix2vec wv
  refine ⟨{ wsu with
    block, nextPtr, ix2vecSize := wsu.grownSize, ix2vec := wsu.ix2vec ++ [.vec wv], vec2ix := fm' },
    ?_, ?_, rfl, rfl, hfree, rfl, rfl⟩
  · rw [appendSlot, hens, ok_bind, vgAssert_bind hgrown]
    simp only [hadd, ok_bind, pure_eq_ok]
    rw [mod_eq_of_lt (by omega)]
  · refine h.put hvecs ⟨_, hfm', hvecs ▸ hm.add hnew hnone⟩ (by simpa using hsorted)
      (by simpa using hptr.trans_le hnext) hnext ⟨[], ?_, nodup_nil⟩ ?_ ?_
    · exact hfree ▸ trivial
    · rw [length_append]
      exact hgrown
    · rw [length_append]
      exact hlt

end

/-- The map has no vector of these words, so no live handle denotes their set. -/
theorem Table.denotes_ne (h : wsu.Table)
    (hm : Indexes m (vecAt wsu.ix2vec)) (hsorted : wv.words.Pairwise (· < ·)) (hnew : m wv = none)
    (ws : WordSet) : wsu.denotes ws ≠ some wv.words.toFinset := by
  intro hws
  obtain ⟨wv', hwv', heq⟩ := map_eq_some_iff.mp hws
  have hwords := eq_of_toFinset_eq (h.sorted _ _ hwv') hsorted heq
  exact nomatch hnew.symm.trans ((hm wv wv' ws).mpr ⟨hwv', hwords⟩)

/-- A call gives the handle of a set, and leaves the rest of the universe alone. -/
def Gives (wsu : WordSetU) (S : Finset UWord) (call : Except Abort (WordSet × WordSetU)) : Prop :=
  ∃ r wsu', call = .ok (r, wsu') ∧ wsu'.Table ∧ Interned wsu.denotes S r wsu'.denotes
    ∧ wsu'.empty = wsu.empty ∧ wsu'.cache = wsu.cache

/-- **A vector gets its handle**: the one its words have, a dead one, or a new one. -/
theorem addOrDeallocWordVec_spec (h : wsu.Table) (hroom : wsu.Room)
    (hsorted : wv.words.Pairwise (· < ·)) (hptr : wv.ptr < wsu.nextPtr)
    (hfresh : ∀ ws wv', vecAt wsu.ix2vec ws = some wv' → wv'.ptr ≠ wv.ptr) :
    wsu.Gives wv.words.toFinset (wsu.addOrDeallocWordVec wv) := by
  obtain ⟨m, hfm, hm⟩ := h.index
  rw [addOrDeallocWordVec, lookupFM_eq hfm]
  cases hfound : m wv with
  | some b =>
    obtain ⟨wvOld, ixOld⟩ := b
    obtain ⟨hold, hwords⟩ := (hm wv wvOld ixOld).mp hfound
    have hslot : wsu.ix2vec[ixOld]?.any (·.pointsTo wvOld) = true := by
      rw [vecAt_eq_some.mp hold]
      exact decide_eq_true rfl
    have hlt : ixOld < 2 ^ 31 := (lt_of_vecAt hold).trans_le h.used_le_max
    refine ⟨ixOld, wsu, ?_, h, .old ?_, rfl, rfl⟩
    · dsimp only
      rw [vgAssert_bind (hfresh ixOld wvOld hold), vgAssert_bind hslot,
        mod_eq_of_lt (hlt.trans (by norm_num))]
      rfl
    · rw [denotes, comp_apply, hold, ← hwords]
      rfl
  | none =>
    have hne := h.denotes_ne hm hsorted hfound
    cases hfree : wsu.ix2vecFree with
    | some p =>
      obtain ⟨wsu', hcall, htable, hnone, hvecs, hempty, hcache⟩ :=
        reuseSlot_spec h hfm hm hsorted hptr hfree hfound
      refine ⟨p.index, wsu', hcall, htable, ?_, hempty, hcache⟩
      rw [denotes_of_update hvecs]
      exact .new (by rw [denotes, comp_apply, hnone]; rfl) hne
    | none =>
      have hlt := hroom.resolve_left fun hne => hne hfree
      obtain ⟨wsu', hcall, htable, happend, -, -, hempty, hcache⟩ :=
        appendSlot_spec h hfm hm hsorted hptr hfree hlt hfound
      refine ⟨wsu.ix2vec.length, wsu', hcall, htable, ?_, hempty, hcache⟩
      have hvecs : vecAt wsu'.ix2vec
          = update (vecAt wsu.ix2vec) wsu.ix2vec.length (some wv) :=
        happend ▸ vecAt_append wsu.ix2vec wv
      rw [denotes_of_update hvecs]
      refine .new ?_ hne
      rw [denotes, comp_apply, vecAt, getElem?_eq_none le_rfl]
      rfl

/-- A new vector is counted in. -/
theorem Table.alloc (h : wsu.Table) : ({ wsu with nextPtr := wsu.nextPtr + 1 } : WordSetU).Table :=
  { h with ptr_lt := fun ws wv hwv => (h.ptr_lt ws wv hwv).trans (lt_succ_self _) }

theorem newWV_ok (wsu : WordSetU) (words : List UWord) : wsu.newWV words.length words
    = .ok (⟨wsu.nextPtr, words⟩, { wsu with nextPtr := wsu.nextPtr + 1 }) := by
  rw [newWV, if_neg (lt_irrefl _), vgAssert_bind rfl]
  rfl

theorem intern_spec (h : wsu.Table) (hroom : wsu.Room) {words : List UWord}
    (hsorted : words.Pairwise (· < ·)) :
    wsu.Gives words.toFinset (wsu.intern words.length words) := by
  rw [intern, newWV_ok, ok_bind]
  refine addOrDeallocWordVec_spec h.alloc hroom hsorted (lt_succ_self wsu.nextPtr) ?_
  exact fun ws wv hwv => (h.ptr_lt ws wv hwv).ne

/-! ## The caches -/

/-- What each cache remembers the results of. -/
def want : CacheName → Naming WordSet (Finset UWord) → WCacheEnt → Option (Finset UWord)
  | .addTo, m, e => (m e.arg1).map (insert e.arg2)
  | .delFrom, m, e => (m e.arg1).map (·.erase e.arg2)
  | .intersect, m, e => Option.map₂ (· ∩ ·) (m e.arg1) (m e.arg2)
  | .minus, m, e => Option.map₂ (· \ ·) (m e.arg1) (m e.arg2)

theorem stable_want (c : CacheName) : Stable (want c) := by
  intro m m' hkeeps e S hS
  cases c with
  | addTo | delFrom =>
    obtain ⟨T, hT, rfl⟩ := map_eq_some_iff.mp hS
    exact map_eq_some_iff.mpr ⟨T, hkeeps hT, rfl⟩
  | intersect | minus =>
    obtain ⟨T, U, hT, hU, rfl⟩ := map₂_eq_some_iff.mp hS
    exact map₂_eq_some_iff.mpr ⟨T, U, hkeeps hT, hkeeps hU, rfl⟩

end WordSetU

namespace WCache

variable {c : WCache}

/-- A cache of a size that is allowed, not over-full. -/
structure Ok (c : WCache) : Prop where
  pos : 1 ≤ c.dynMax
  le_max : c.dynMax ≤ nWCacheStatMax
  inUse_le : c.ent.length ≤ c.dynMax

theorem Ok.check (h : c.Ok) : c.check = .ok () := by
  rw [WCache.check, vgAssert_bind h.pos, vgAssert_bind h.le_max, vgAssert_of h.inUse_le]

theorem lookupBehind_spec {arg1 arg2 r : UWord} {prev : WCacheEnt} {es es' : List WCacheEnt}
    (h : lookupBehind arg1 arg2 prev es = some (r, es')) :
    ⟨arg1, arg2, r⟩ ∈ es ∧ es'.Perm (prev :: es) := by
  induction es generalizing prev es' with
  | nil => exact nomatch h
  | cons e es ih =>
    rw [lookupBehind] at h
    split_ifs at h with hhit
    · cases h
      obtain ⟨rfl, rfl⟩ := hhit
      exact ⟨mem_cons_self, List.Perm.swap _ _ _⟩
    · obtain ⟨⟨r', es''⟩, hq, heq⟩ := map_eq_some_iff.mp h
      obtain ⟨rfl, rfl⟩ := Prod.mk.inj heq
      obtain ⟨hmem, hperm⟩ := ih hq
      exact ⟨mem_cons_of_mem _ hmem, List.Perm.cons _ hperm⟩

/-- **A lookup returns what an entry holds**, and no entry is lost. -/
theorem Ok.lookup (h : c.Ok) (arg1 arg2 : UWord) : c.lookup arg1 arg2 = .ok none
    ∨ ∃ r c', c.lookup arg1 arg2 = .ok (some (r, c')) ∧ ⟨arg1, arg2, r⟩ ∈ c.ent ∧ c'.Ok
      ∧ c'.ent.Perm c.ent := by
  rw [WCache.lookup, h.check, ok_bind]
  cases hent : c.ent with
  | nil => exact .inl rfl
  | cons e es =>
    dsimp only
    split_ifs with hhit
    · obtain ⟨rfl, rfl⟩ := hhit
      exact .inr ⟨e.res, c, rfl, mem_cons_self, h, hent ▸ .refl _⟩
    · cases hq : lookupBehind arg1 arg2 e es with
      | none => exact .inl rfl
      | some q =>
        obtain ⟨r, es'⟩ := q
        obtain ⟨hmem, hperm⟩ := lookupBehind_spec hq
        refine .inr ⟨r, { c with ent := es' }, rfl, mem_cons_of_mem _ hmem, ?_, hperm⟩
        exact ⟨h.pos, h.le_max, (hperm.length_eq.trans (congrArg _ hent.symm)).trans_le h.inUse_le⟩

/-- An update adds one entry. -/
theorem Ok.update (h : c.Ok) (arg1 arg2 res : UWord) : ∃ c', c.update arg1 arg2 res = .ok c' ∧ c'.Ok
    ∧ ∀ e ∈ c'.ent, e = ⟨arg1, arg2, res⟩ ∨ e ∈ c.ent := by
  rw [WCache.update, h.check, ok_bind]
  refine ⟨_, rfl, ⟨h.pos, h.le_max, ?_⟩, fun e he => mem_cons.mp (mem_of_mem_take he)⟩
  refine (length_take_le _ _).trans ?_
  have := h.inUse_le
  dsimp only
  split_ifs <;> omega

end WCache

namespace WordSetU

variable {wsu : WordSetU} {ws ws1 ws2 r : WordSet} {S S1 S2 : Finset UWord} {wv : WordVec}
  {words : List UWord} {call : Except Abort (WordSet × WordSetU)}

/-- **The universe is in order**: its table, the empty set at handle 0, and its caches. -/
structure Inv (wsu : WordSetU) : Prop extends wsu.Table where
  empty_eq : wsu.empty = 0
  empty_denotes : wsu.denotes 0 = some ∅
  cacheOk : ∀ c, (wsu.cache c).Ok
  remembers : ∀ c, Remembers wsu.denotes (want c) WCacheEnt.res (wsu.cache c).ent

/-- A universe in order gives the handle of a set and stays in order. -/
def Returns (wsu : WordSetU) (S : Finset UWord) (call : Except Abort (WordSet × WordSetU)) : Prop :=
  ∃ r wsu', call = .ok (r, wsu') ∧ wsu'.Inv ∧ Interned wsu.denotes S r wsu'.denotes

theorem Inv.of_gives (h : wsu.Inv) (hcall : wsu.Gives S call) : wsu.Returns S call := by
  obtain ⟨r, wsu', hrun, htable, hint, hempty, hcache⟩ := hcall
  refine ⟨r, wsu', hrun, ⟨htable, hempty.trans h.empty_eq, hint.keeps h.empty_denotes, ?_, ?_⟩, hint⟩
  · exact fun c => hcache ▸ h.cacheOk c
  · exact fun c => hcache ▸ (h.remembers c).mono (stable_want c) hint.keeps

/-- The empty set has the handle it is known by. -/
theorem Inv.eq_empty (h : wsu.Inv) (hr : wsu.denotes r = some ∅) : r = wsu.empty :=
  (h.canonical hr h.empty_denotes).trans h.empty_eq.symm

theorem Inv.ne_bogus (h : wsu.Inv) (hr : wsu.denotes r = some S) : r ≠ bogus := by
  have hlt := h.lt_of_denotes hr
  rw [bogus]
  exact (hlt.trans (by norm_num)).ne

theorem cache_setCache (wsu : WordSetU) (c c' : CacheName) (cache : WCache) :
    (wsu.setCache c cache).cache c' = if c' = c then cache else wsu.cache c' :=
  update_apply ..

/-- A cache with other right entries. -/
theorem Inv.setCache (h : wsu.Inv) (c : CacheName) {cache : WCache} (hok : cache.Ok)
    (hmem : Remembers wsu.denotes (want c) WCacheEnt.res cache.ent) : (wsu.setCache c cache).Inv := by
  refine ⟨{ h.toTable with }, h.empty_eq, h.empty_denotes, fun c' => ?_, fun c' => ?_⟩
  · rw [cache_setCache]
    split_ifs
    · exact hok
    · exact h.cacheOk c'
  · rw [cache_setCache]
    split_ifs with heq
    · exact heq ▸ hmem
    · exact h.remembers c'

/-- **A cached operation returns what its computation would.** -/
theorem Inv.cached (h : wsu.Inv) {c : CacheName} {arg1 arg2 : UWord}
    (hwant : ∀ res, want c wsu.denotes ⟨arg1, arg2, res⟩ = some S)
    {compute : Except Abort (WordSet × WordSetU)} (hcompute : wsu.Returns S compute) :
    wsu.Returns S (wsu.cached c arg1 arg2 compute) := by
  unfold WordSetU.cached
  rcases (h.cacheOk c).lookup arg1 arg2 with hmiss | ⟨r, cache, hhit, hmem, hok, hperm⟩
  · obtain ⟨r, wsu', hrun, hinv, hint⟩ := hcompute
    obtain ⟨cache, hupd, hok, hent⟩ := (hinv.cacheOk c).update arg1 arg2 r
    refine ⟨r, wsu'.setCache c cache, ?_, hinv.setCache c hok fun e he => ?_, hint⟩
    · simp only [hmiss, hrun, hupd, ok_bind, pure_eq_ok]
    · rcases hent e he with rfl | he
      · exact ⟨S, stable_want c hint.keeps (hwant r), hint.denotes⟩
      · exact hinv.remembers c e he
  · obtain ⟨T, hT, hres⟩ := h.remembers c _ hmem
    obtain rfl := some.inj ((hwant r).symm.trans hT)
    refine ⟨r, wsu.setCache c cache, ?_, h.setCache c hok fun e he => ?_, .old hres⟩
    · simp only [hhit, ok_bind, pure_eq_ok]
    · exact h.remembers c e (hperm.mem_iff.mp he)

/-! ## The operations -/

/-- The vector of a live handle is sorted and has the words of its set. -/
theorem Inv.exists_vec (h : wsu.Inv) (hS : wsu.denotes ws = some S) :
    ∃ wv, wsu.doIx2vec ws = .ok wv ∧ wv.words.Pairwise (· < ·)
      ∧ wv.words.toFinset = S := by
  obtain ⟨wv, hwv, rfl⟩ := map_eq_some_iff.mp hS
  exact ⟨wv, h.doIx2vec hwv, h.sorted ws wv hwv, rfl⟩

/-- What a call returns may be checked before it is returned. -/
theorem Returns.check (hcall : wsu.Returns S call)
    (p : WordSet → WordSetU → Prop) [∀ r s, Decidable (p r s)]
    (hp : ∀ r wsu', wsu'.Inv → wsu'.denotes r = some S → p r wsu') :
    wsu.Returns S (do let (r, wsu') ← call; vgAssert (p r wsu'); return (r, wsu')) := by
  obtain ⟨r, wsu', rfl, hinv, hint⟩ := hcall
  refine ⟨r, wsu', ?_, hinv, hint⟩
  rw [ok_bind]
  exact vgAssert_bind (hp r wsu' hinv hint.denotes) _

section Ops

variable (h : wsu.Inv) (hroom : wsu.Room)

include h hroom

theorem doubletonWS_spec (w1 w2 : UWord) : wsu.Returns {w1, w2} (wsu.doubletonWS w1 w2) := by
  rw [doubletonWS]
  split_ifs with heq hlt
  · subst heq
    have := intern_spec h.toTable hroom (pairwise_singleton (· < ·) w1)
    simpa using h.of_gives this
  · have := intern_spec h.toTable hroom (pairwise_pair.mpr hlt)
    simpa using h.of_gives this
  · have hgt : w2 < w1 := lt_of_le_of_ne (not_lt.mp hlt) (Ne.symm heq)
    have := intern_spec h.toTable hroom (pairwise_pair.mpr hgt)
    rw [Finset.pair_comm]
    simpa using h.of_gives this

theorem addToWS_spec (hS : wsu.denotes ws = some S) (w : UWord) :
    wsu.Returns (insert w S) (wsu.addToWS ws w) := by
  refine h.cached (fun _ => by rw [want, hS]; rfl) ?_
  obtain ⟨wv, hwv, hsorted, rfl⟩ := h.exists_vec hS
  rw [addToUncached, hwv, ok_bind]
  split_ifs with hmem
  · rw [Finset.insert_eq_of_mem (mem_toFinset.mpr hmem)]
    exact ⟨ws, wsu, rfl, h, .old hS⟩
  · obtain ⟨words, hadd, hsorted', hlen, hset⟩ := addWord_spec hsorted hmem
    have hgives := h.of_gives (intern_spec h.toTable hroom hsorted')
    rw [hlen, hset] at hgives
    rw [hadd, ok_bind]
    exact hgives.check (fun r _ => r ≠ bogus) fun r wsu' hinv hr => hinv.ne_bogus hr

theorem delFromWS_spec (hS : wsu.denotes ws = some S) (w : UWord) :
    wsu.Returns (S.erase w) (wsu.delFromWS ws w) := by
  obtain ⟨wv, hwv, hsorted, rfl⟩ := h.exists_vec hS
  rw [delFromWS, hwv, ok_bind]
  split_ifs with hsize
  · have hnil : wv.words = [] := length_eq_zero_iff.mp hsize
    rw [hnil] at hS ⊢
    rw [vgAssert_bind (h.eq_empty hS)]
    exact ⟨ws, wsu, rfl, h, .old hS⟩
  · refine h.cached (fun _ => by rw [want, hS]; rfl) ?_
    rw [delFromUncached]
    split_ifs with hmem
    · obtain ⟨hsorted', hset⟩ := eraseWord_spec hsorted w
      have hgives := h.of_gives (intern_spec h.toTable hroom hsorted')
      rw [length_eraseIdx_of_lt (idxOf_lt_length_of_mem hmem), hset] at hgives
      refine hgives.check (fun r wsu' => wv.size = 1 → r = wsu'.empty) ?_
      intro r wsu' hinv hr hone
      refine hinv.eq_empty ?_
      obtain ⟨x, hx⟩ := length_eq_one_iff.mp hone
      rw [hr, hx]
      rw [hx] at hmem
      simp [mem_singleton.mp hmem]
    · rw [Finset.erase_eq_of_notMem (mem_toFinset.not.mpr hmem)]
      exact ⟨ws, wsu, rfl, h, .old hS⟩

/-- A merge takes `S` from the words of `S1` and `S2`. -/
def Takes (k : Keep) (S1 S2 S : Finset UWord) : Prop := ∀ {l1 l2 : List UWord},
  l1.Pairwise (· < ·) → l2.Pairwise (· < ·) → l1.toFinset = S1 → l2.toFinset = S2 →
    (mergeWords k l1 l2).toFinset = S

section

variable (hS1 : wsu.denotes ws1 = some S1) (hS2 : wsu.denotes ws2 = some S2)
include hS1 hS2

/-- **A merge gives the handle of the set it takes from the two.** -/
theorem merge_spec (k : Keep) (hset : Takes k S1 S2 S) :
    ∃ r wsu', wsu.merge k ws1 ws2 = .ok (S.card, r, wsu') ∧ wsu'.Inv
      ∧ Interned wsu.denotes S r wsu'.denotes := by
  obtain ⟨wv1, hwv1, hsorted1, h1⟩ := h.exists_vec hS1
  obtain ⟨wv2, hwv2, hsorted2, h2⟩ := h.exists_vec hS2
  have hsorted := pairwise_mergeWords hsorted1 hsorted2 k
  have hgives := h.of_gives (intern_spec h.toTable hroom hsorted)
  rw [hset hsorted1 hsorted2 h1 h2] at hgives
  obtain ⟨r, wsu', hrun, hinv, hint⟩ := hgives
  refine ⟨r, wsu', ?_, hinv, hint⟩
  have hcard : mergeSize k wv1.words wv2.words = S.card := by
    rw [mergeSize_eq, ← hset hsorted1 hsorted2 h1 h2, toFinset_card_of_nodup hsorted.nodup]
  rw [← mergeSize_eq, hcard] at hrun
  rw [merge, hwv1, ok_bind, hwv2, ok_bind]
  simp only [hcard, hrun, ok_bind, pure_eq_ok]

theorem unionWS_spec : wsu.Returns (S1 ∪ S2) (wsu.unionWS ws1 ws2) := by
  obtain ⟨r, wsu', hrun, hinv, hint⟩ := merge_spec h hroom hS1 hS2 unionKeep
    fun h1 h2 e1 e2 => e1 ▸ e2 ▸ toFinset_mergeWords_union h1 h2
  exact ⟨r, wsu', by rw [unionWS, hrun]; rfl, hinv, hint⟩

theorem mergeUncached_spec (k : Keep) (hset : Takes k S1 S2 S) :
    wsu.Returns S (wsu.mergeUncached k ws1 ws2) := by
  obtain ⟨r, wsu', hrun, hinv, hint⟩ := merge_spec h hroom hS1 hS2 k hset
  refine ⟨r, wsu', ?_, hinv, hint⟩
  have hempty : S.card = 0 → r = wsu'.empty := fun hcard =>
    hinv.eq_empty (Finset.card_eq_zero.mp hcard ▸ hint.denotes)
  rw [mergeUncached, hrun, ok_bind]
  dsimp only
  rw [vgAssert_bind hempty, vgAssert_bind (hinv.ne_bogus hint.denotes)]
  rfl

theorem intersectWS_spec : wsu.Returns (S1 ∩ S2) (wsu.intersectWS ws1 ws2) := by
  rw [intersectWS]
  split_ifs with heq hgt
  · subst heq
    obtain rfl := some.inj (hS1.symm.trans hS2)
    rw [Finset.inter_self]
    exact ⟨ws1, wsu, rfl, h, .old hS1⟩
  · rw [Finset.inter_comm]
    exact h.cached (fun _ => by rw [want, hS1, hS2]; rfl)
      (mergeUncached_spec h hroom hS2 hS1 intersectKeep
        fun h1 h2 e1 e2 => e1 ▸ e2 ▸ toFinset_mergeWords_intersect h1 h2)
  · exact h.cached (fun _ => by rw [want, hS1, hS2]; rfl)
      (mergeUncached_spec h hroom hS1 hS2 intersectKeep
        fun h1 h2 e1 e2 => e1 ▸ e2 ▸ toFinset_mergeWords_intersect h1 h2)

theorem minusWS_spec : wsu.Returns (S1 \ S2) (wsu.minusWS ws1 ws2) :=
  h.cached (fun _ => by rw [want, hS1, hS2]; rfl)
    (mergeUncached_spec h hroom hS1 hS2 minusKeep
      fun h1 h2 e1 e2 => e1 ▸ e2 ▸ toFinset_mergeWords_minus h1 h2)

end

omit hroom

/-- **A handle dies**: it denotes nothing from now on, and nothing is remembered. -/
theorem retire_spec (hne : ws ≠ 0) (hwv : vecAt wsu.ix2vec ws = some wv) :
    ∃ wsu', wsu.retire ws wv = .ok wsu' ∧ wsu'.Inv
      ∧ wsu'.denotes = update wsu.denotes ws none := by
  obtain ⟨m, hfm, hm⟩ := h.index
  obtain ⟨fm', hdel, hfm', -⟩ := delFromFM_spec hfm wv
  have hfound : m wv = some (wv, ws) := (hm wv wv ws).mpr ⟨hwv, rfl⟩
  obtain ⟨ks, hchain, hnodup⟩ := h.chain
  have hlt := lt_of_vecAt hwv
  have hvecs := vecAt_set hlt (.link wsu.ix2vecFree)
  have hnot : ws ∉ ks := fun hmem => by
    obtain ⟨next, hslot⟩ := hchain.exists_link ws hmem
    exact nomatch hslot.symm.trans (vecAt_eq_some.mp hwv)
  let wsu' : WordSetU := { wsu with
    ix2vec := wsu.ix2vec.set ws (.link wsu.ix2vecFree)
    ix2vecFree := some ⟨wsu.block, ws⟩
    vec2ix := fm'
    cache := fun c => { wsu.cache c with ent := [] } }
  have hden : wsu'.denotes = update wsu.denotes ws none :=
    denotes_of_update (o := none) hvecs
  refine ⟨wsu', ?_, ⟨h.put hvecs ⟨_, hfm', ?_⟩ nofun nofun le_rfl ?_ ?_ ?_, h.empty_eq, ?_, ?_, ?_⟩,
    hden⟩
  · rw [retire, hdel, ok_bind, hfound]
    dsimp only [map_some, getD_some]
    rw [vgAssert_bind hne, vgAssert_bind rfl]
    rfl
  · exact hvecs ▸ hm.del hwv
  · refine ⟨ws :: ks, ⟨rfl, one_le_iff_ne_zero.mpr hne, wsu.ix2vecFree, ?_, hchain.congr ?_⟩,
      nodup_cons.mpr ⟨hnot, hnodup⟩⟩
    · exact getElem?_set_self hlt
    · exact fun k hk => getElem?_set_ne fun heq : ws = k => hnot (heq ▸ hk)
  · exact (length_set ..).trans_le h.used_le
  · exact (length_set ..).trans_le h.used_le_max
  · rw [hden, update_of_ne (Ne.symm hne)]
    exact h.empty_denotes
  · exact fun c => ⟨(h.cacheOk c).pos, (h.cacheOk c).le_max, zero_le⟩
  · exact fun c => nofun

/-- The empty set never dies. -/
theorem dieWS_spec (hS : wsu.denotes ws = some S) : ∃ wsu', wsu.dieWS ws = .ok wsu' ∧ wsu'.Inv
      ∧ wsu'.denotes = if ws = 0 then wsu.denotes else update wsu.denotes ws none := by
  obtain ⟨wv, hwv, -⟩ := map_eq_some_iff.mp hS
  have hlive : wsu.doIx2vecWithDead ws = .ok (some wv) := by
    rw [doIx2vecWithDead, vgAssert_bind h.used_le, vecAt_eq_some.mp hwv]
    rfl
  rw [dieWS, hlive, ok_bind]
  dsimp only
  split_ifs with hzero
  · exact ⟨wsu, rfl, h, rfl⟩
  · exact retire_spec h hzero hwv

end Ops

/-! ## Runs -/

/-- The operations on a universe. -/
inductive Op where
  | doubleton (w1 w2 : UWord)
  | addTo (ws : WordSet) (w : UWord)
  | delFrom (ws : WordSet) (w : UWord)
  | union (ws1 ws2 : WordSet)
  | intersect (ws1 ws2 : WordSet)
  | minus (ws1 ws2 : WordSet)
  | die (ws : WordSet)
deriving DecidableEq, Repr

/-- The handles an operation is applied to. -/
def Op.args : Op → List WordSet
  | .doubleton _ _ => []
  | .addTo ws _ | .delFrom ws _ | .die ws => [ws]
  | .union ws1 ws2 | .intersect ws1 ws2 | .minus ws1 ws2 => [ws1, ws2]

/-- A handle is returned. -/
def returned (call : Except Abort (WordSet × WordSetU)) :
    Except Abort (Option WordSet × WordSetU) := do
  let (ws, wsu) ← call
  return (some ws, wsu)

/-- One operation. -/
def step (wsu : WordSetU) : Op → Except Abort (Option WordSet × WordSetU)
  | .doubleton w1 w2 => returned (wsu.doubletonWS w1 w2)
  | .addTo ws w => returned (wsu.addToWS ws w)
  | .delFrom ws w => returned (wsu.delFromWS ws w)
  | .union ws1 ws2 => returned (wsu.unionWS ws1 ws2)
  | .intersect ws1 ws2 => returned (wsu.intersectWS ws1 ws2)
  | .minus ws1 ws2 => returned (wsu.minusWS ws1 ws2)
  | .die ws => do
    let wsu ← wsu.dieWS ws
    return (none, wsu)

/-- The set an operation makes. -/
def Op.result (m : Naming WordSet (Finset UWord)) : Op → Option (Finset UWord)
  | .doubleton w1 w2 => some {w1, w2}
  | .addTo ws w => (m ws).map (insert w)
  | .delFrom ws w => (m ws).map (·.erase w)
  | .union ws1 ws2 => Option.map₂ (· ∪ ·) (m ws1) (m ws2)
  | .intersect ws1 ws2 => Option.map₂ (· ∩ ·) (m ws1) (m ws2)
  | .minus ws1 ws2 => Option.map₂ (· \ ·) (m ws1) (m ws2)
  | .die _ => none

/-- **What an operation does to the handles.**  The handle of its result is given; or a handle
dies, unless it is the empty set's. -/
def Op.Effect : Op → Option WordSet → Naming WordSet (Finset UWord) →
    Naming WordSet (Finset UWord) → Prop
  | .die ws, r, m, m' => r = none ∧ m' = if ws = 0 then m else update m ws none
  | op, r, m, m' => ∃ ws S, r = some ws ∧ op.result m = some S ∧ Interned m S ws m'

/-- The operation is applied to live handles. -/
def OnLive (wsu : WordSetU) (op : Op) : Prop := ∀ ws ∈ op.args, ∃ S, wsu.denotes ws = some S

/-- A handle is returned to the client. -/
theorem Returns.effect (hcall : wsu.Returns S call)
    {op : Op} (hstep : wsu.step op = returned call) (hS : op.result wsu.denotes = some S) :
    ∃ r wsu', wsu.step op = .ok (r, wsu') ∧ op.Effect r wsu.denotes wsu'.denotes ∧ wsu'.Inv := by
  obtain ⟨ws, wsu', rfl, hinv, hint⟩ := hcall
  refine ⟨some ws, wsu', hstep, ?_, hinv⟩
  cases op with
  | die ws => cases hS
  | _ => exact ⟨ws, S, rfl, hS, hint⟩

/-- **One operation** on live handles has its effect, and leaves the universe in order. -/
theorem step_spec (h : wsu.Inv) {op : Op} (hlive : wsu.OnLive op) (hroom : wsu.Room) :
    ∃ r wsu', wsu.step op = .ok (r, wsu') ∧ op.Effect r wsu.denotes wsu'.denotes ∧ wsu'.Inv := by
  have htwo : ∀ {ws1 ws2}, (∀ ws ∈ [ws1, ws2], ∃ S, wsu.denotes ws = some S) →
      ∃ S1 S2, wsu.denotes ws1 = some S1 ∧ wsu.denotes ws2 = some S2 := by
    simp
  cases op with
  | doubleton w1 w2 => exact (doubletonWS_spec h hroom w1 w2).effect rfl rfl
  | addTo ws w =>
    obtain ⟨S, hS⟩ := hlive ws mem_cons_self
    exact (addToWS_spec h hroom hS w).effect rfl (by rw [Op.result, hS]; rfl)
  | delFrom ws w =>
    obtain ⟨S, hS⟩ := hlive ws mem_cons_self
    exact (delFromWS_spec h hroom hS w).effect rfl (by rw [Op.result, hS]; rfl)
  | union ws1 ws2 =>
    obtain ⟨S1, S2, hS1, hS2⟩ := htwo hlive
    exact (unionWS_spec h hroom hS1 hS2).effect rfl (by rw [Op.result, hS1, hS2]; rfl)
  | intersect ws1 ws2 =>
    obtain ⟨S1, S2, hS1, hS2⟩ := htwo hlive
    exact (intersectWS_spec h hroom hS1 hS2).effect rfl (by rw [Op.result, hS1, hS2]; rfl)
  | minus ws1 ws2 =>
    obtain ⟨S1, S2, hS1, hS2⟩ := htwo hlive
    exact (minusWS_spec h hroom hS1 hS2).effect rfl (by rw [Op.result, hS1, hS2]; rfl)
  | die ws =>
    obtain ⟨S, hS⟩ := hlive ws mem_cons_self
    obtain ⟨wsu', hrun, hinv, hden⟩ := dieWS_spec h hS
    exact ⟨none, wsu', by rw [step, hrun]; rfl, ⟨rfl, hden⟩, hinv⟩

/-- A set that has no handle needs a new slot if no dead one is left. -/
theorem intern_eq_appendSlot (h : wsu.Table) (hfree : wsu.ix2vecFree = none)
    (hne : ∀ ws, wsu.denotes ws ≠ some words.toFinset) :
    wsu.intern words.length words
      = ({ wsu with nextPtr := wsu.nextPtr + 1 } : WordSetU).appendSlot ⟨wsu.nextPtr, words⟩
    ∧ ∃ m, WordFM.Represents cmpWordVecs wsu.vec2ix m ∧ Indexes m (vecAt wsu.ix2vec)
      ∧ m ⟨wsu.nextPtr, words⟩ = none := by
  obtain ⟨m, hfm, hm⟩ := h.index
  have hnew : m ⟨wsu.nextPtr, words⟩ = none := by
    refine eq_none_iff_forall_ne_some.mpr fun ⟨wv, ws⟩ hfound => hne ws ?_
    obtain ⟨hwv, hwords⟩ := (hm _ _ _).mp hfound
    rw [denotes, comp_apply, hwv, map_some, hwords]
  refine ⟨?_, m, hfm, hm, hnew⟩
  rw [intern, newWV_ok, ok_bind]
  simp only [addOrDeallocWordVec, lookupFM_eq hfm, hnew]
  split
  · next p hp => exact nomatch hfree.symm.trans hp
  · rfl

theorem intern_append (h : wsu.Table) (hfree : wsu.ix2vecFree = none)
    (hlt : wsu.ix2vec.length < 2 ^ 31) (hsorted : words.Pairwise (· < ·))
    (hne : ∀ ws, wsu.denotes ws ≠ some words.toFinset) :
    ∃ wsu', wsu.intern words.length words = .ok (wsu.ix2vec.length, wsu') ∧ wsu'.Table
      ∧ wsu'.ix2vec = wsu.ix2vec ++ [.vec ⟨wsu.nextPtr, words⟩] ∧ wsu'.ix2vecSize = wsu.grownSize
      ∧ wsu'.ix2vecFree = none ∧ wsu'.empty = wsu.empty ∧ wsu'.cache = wsu.cache := by
  obtain ⟨hrun, m, hfm, hm, hnew⟩ := intern_eq_appendSlot h hfree hne
  rw [hrun]
  exact appendSlot_spec h.alloc hfm hm hsorted (lt_succ_self wsu.nextPtr) hfree hlt hnew

/-- Before it has the empty set, a universe has nothing. -/
theorem table_nil (cache : CacheName → WCache) :
    (⟨WordFM.newFM cmpWordVecs, [], 0, 0, none, 0, cache, 1⟩ : WordSetU).Table where
  index := ⟨_, represents_newFM cmpWordVecs, fun _ _ _ =>
    iff_of_false nofun fun h => nomatch h.1⟩
  sorted := nofun
  ptr_lt := nofun
  chain := ⟨[], trivial, nodup_nil⟩
  used_le := le_rfl
  used_le_max := zero_le

/-- **A new universe has the empty set, at handle 0, and nothing else.** -/
theorem newWordSetU_spec {cacheSize : ℕ} (hpos : 1 ≤ cacheSize)
    (hmax : cacheSize ≤ nWCacheStatMax) :
    ∃ wsu, newWordSetU cacheSize = .ok wsu ∧ wsu.Inv
      ∧ wsu.denotes = update (fun _ => none) 0 (some ∅)
      ∧ wsu.ix2vec.length = 1 ∧ wsu.ix2vecSize = 1 ∧ wsu.ix2vecFree = none := by
  have hinit : init cacheSize = .ok ⟨[], cacheSize⟩ := by
    rw [init, vgAssert_bind hpos, vgAssert_bind hmax]
    rfl
  obtain ⟨wsu', hrun, htable, hslots, hsize, hfree, hempty, hcache⟩ :=
    intern_append (table_nil fun _ => ⟨[], cacheSize⟩) rfl (by simp) List.Pairwise.nil
      (fun ws => nofun)
  have hvecs := vecAt_append [] ⟨1, []⟩
  have hden : wsu'.denotes = update (fun _ => none) 0 (some ∅) := by
    rw [denotes, hslots]
    exact (congrArg _ hvecs).trans (comp_update ..)
  refine ⟨{ wsu' with empty := 0 }, ?_, ⟨{ htable with }, rfl, ?_, ?_, ?_⟩, hden, ?_, hsize, hfree⟩
  · rw [newWordSetU, hinit, ok_bind]
    exact (congrArg (· >>= _) hrun).trans rfl
  · exact (congrFun hden 0).trans (update_self ..)
  · exact fun c => hcache ▸ ⟨hpos, hmax, zero_le⟩
  · exact fun c => hcache ▸ nofun
  · exact congrArg length hslots

/-- **Word sets are exact.**  In every run on live handles that finds a free slot, or fewer than
`2 ^ 31` of them in use, before each operation: every operation returns, with the handle of its
set-theoretic result, which is the one that set has or one that was dead, and no other handle
changes; no two live handles denote the same set; and every cached result is the live handle of
the result it is kept for. -/
theorem wordSets_exact {cacheSize : ℕ} {wsu : WordSetU} (hnew : newWordSetU cacheSize = .ok wsu)
    {ops : List Op} (hops : Meets step (fun s op => s.OnLive op ∧ s.Room) wsu ops) :
    wsu.denotes = update (fun _ => none) 0 (some ∅) ∧
      ∃ rs s, run step wsu ops = .ok (rs, s)
        ∧ Effects Op.Effect ops rs wsu.denotes s.denotes
        ∧ (∀ ws1 ws2 S1 S2, s.denotes ws1 = some S1 → s.denotes ws2 = some S2 →
          (ws1 = ws2 ↔ S1 = S2))
        ∧ ∀ c, Remembers s.denotes (want c) WCacheEnt.res (s.cache c).ent := by
  have hsize : 1 ≤ cacheSize ∧ cacheSize ≤ nWCacheStatMax := by
    obtain ⟨cache, hcache, -⟩ := bind_eq_ok.mp hnew
    rw [init, vgAssert_bind_eq_ok, vgAssert_bind_eq_ok] at hcache
    exact ⟨hcache.1, hcache.2.1⟩
  obtain ⟨wsu', hnew', hinv, hden, -⟩ := newWordSetU_spec hsize.1 hsize.2
  obtain rfl := Except.ok.inj (hnew.symm.trans hnew')
  refine ⟨hden, ?_⟩
  have hstep : ∀ ⦃s : WordSetU⦄ ⦃m⦄ ⦃op : Op⦄, s.Inv ∧ m = s.denotes → s.OnLive op ∧ s.Room →
      ∃ r s' m', s.step op = .ok (r, s') ∧ op.Effect r m m' ∧ s'.Inv ∧ m' = s'.denotes := by
    rintro s m op ⟨hinv, rfl⟩ ⟨hlive, hroom⟩
    obtain ⟨r, s', hrun, heff, hinv'⟩ := step_spec hinv hlive hroom
    exact ⟨r, s', s'.denotes, hrun, heff, hinv', rfl⟩
  obtain ⟨rs, s, m, hrun, heff, hinv', rfl⟩ := effects_run hstep ⟨hinv, rfl⟩ hops
  refine ⟨rs, s, hrun, heff, fun ws1 ws2 S1 S2 h1 h2 => ⟨?_, ?_⟩, hinv'.remembers⟩
  · rintro rfl
    exact some.inj (h1.symm.trans h2)
  · rintro rfl
    exact hinv'.canonical h1 h2

/-- Two sets are made, one dies, and its handle is given to a third. -/
theorem wordSets_exact_recycled : ∃ wsu rs s, newWordSetU 1 = .ok wsu
    ∧ run step wsu [.doubleton 1 2, .addTo 1 3, .die 1, .doubleton 5 5] = .ok (rs, s)
    ∧ Effects Op.Effect [.doubleton 1 2, .addTo 1 3, .die 1, .doubleton 5 5] rs wsu.denotes
      s.denotes := by
  have hmeets : ∃ wsu, newWordSetU 1 = .ok wsu ∧ Meets step (fun s op => s.OnLive op ∧ s.Room) wsu
      [.doubleton 1 2, .addTo 1 3, .die 1, .doubleton 5 5] := by
    refine ⟨_, rfl, ⟨nofun, .inr (by decide)⟩, fun r s h => ?_⟩
    cases h
    refine ⟨⟨forall_mem_singleton.mpr ⟨_, rfl⟩, .inr (by decide)⟩, fun r s h => ?_⟩
    cases h
    refine ⟨⟨forall_mem_singleton.mpr ⟨_, rfl⟩, .inr (by decide)⟩, fun r s h => ?_⟩
    cases h
    exact ⟨⟨nofun, .inr (by decide)⟩, fun _ _ _ => trivial⟩
  obtain ⟨wsu, hnew, hops⟩ := hmeets
  obtain ⟨-, rs, s, hrun, heff, -⟩ := wordSets_exact hnew hops
  exact ⟨wsu, rs, s, hnew, hrun, heff⟩

/-! ### Too many sets -/

/-- The universe after `n` new singletons: no slot is dead, and the array has the least power of
two that they fit into. -/
structure Grown (n : ℕ) (wsu : WordSetU) : Prop extends wsu.Table where
  used : wsu.ix2vec.length = n + 1
  free : wsu.ix2vecFree = none
  size : ∃ j, wsu.ix2vecSize = 2 ^ j ∧ n + 1 ≤ 2 ^ j ∧ 2 ^ j < 2 * (n + 1)
  below : ∀ ws S, wsu.denotes ws = some S → ∀ w ∈ S, w < n

/-- The next singleton is new. -/
theorem Grown.ne_singleton {n : ℕ} (h : Grown n wsu) (ws : WordSet) :
    wsu.denotes ws ≠ some [n].toFinset := fun hws =>
  lt_irrefl n (h.below ws _ hws n (by simp))

theorem Grown.step {n : ℕ} (h : Grown n wsu) (hn : n + 1 < 2 ^ 31) :
    ∃ wsu', wsu.step (.doubleton n n) = .ok (some (n + 1), wsu') ∧ Grown (n + 1) wsu' := by
  obtain ⟨wsu', hrun, htable, hslots, hsize, hfree, -⟩ := intern_append h.toTable h.free
    (h.used.trans_lt hn) (pairwise_singleton (· < ·) n) h.ne_singleton
  refine ⟨wsu', ?_, htable, ?_, hfree, ?_, ?_⟩
  · rw [WordSetU.step, doubletonWS, if_pos rfl]
    rw [h.used, length_singleton] at hrun
    rw [hrun]
    rfl
  · rw [hslots, length_append, h.used, length_singleton]
  · obtain ⟨j, hj, hle, hlt⟩ := h.size
    rw [hsize, grownSize, h.used, hj]
    split_ifs with hroom
    · exact ⟨j, rfl, hroom, by omega⟩
    · refine ⟨j + 1, ?_, ?_, ?_⟩ <;> rw [pow_succ'] <;> omega
  · intro ws S hS w hw
    have hden := denotes_of_update (hslots ▸ vecAt_append wsu.ix2vec ⟨wsu.nextPtr, [n]⟩)
    rw [hden, update_apply] at hS
    split_ifs at hS
    · cases hS
      have hwn : w = n := by simpa using hw
      exact hwn.trans_lt (lt_succ_self n)
    · exact (h.below ws S hS w hw).trans (lt_succ_self n)

/-- The array that should hold `2 ^ 32` slots has one. -/
theorem Grown.overflow (h : Grown (2 ^ 31 - 1) wsu) :
    wsu.step (.doubleton (2 ^ 31 - 1) (2 ^ 31 - 1)) = .error .wildAccess := by
  obtain ⟨j, hj, hle, hlt⟩ := h.size
  have hpow : j = 31 := by
    have h1 : 31 ≤ j := (Nat.pow_le_pow_iff_right (by norm_num : 1 < 2)).mp hle
    have h2 : j < 32 := (Nat.pow_lt_pow_iff_right (by norm_num : 1 < 2)).mp hlt
    omega
  have hens : ({ wsu with nextPtr := wsu.nextPtr + 1 } : WordSetU).ensureIx2vecSpace
      = .error .wildAccess := ensureIx2vecSpace_overflow h.used (hpow ▸ hj)
  have hintern := (intern_eq_appendSlot h.toTable h.free h.ne_singleton).1
  rw [appendSlot, hens, error_bind] at hintern
  rw [WordSetU.step, doubletonWS, if_pos rfl]
  exact congrArg returned hintern

/-- **The table outgrows its size**: after `2 ^ 31 - 1` singletons, one more makes the universe copy
`2 ^ 31` slots into an array of one. -/
theorem wordSets_overflow : ∃ wsu rs s, newWordSetU 1 = .ok wsu
    ∧ run step wsu ((List.range' 0 (2 ^ 31 - 1)).map fun w => .doubleton w w) = .ok (rs, s)
    ∧ s.step (.doubleton (2 ^ 31 - 1) (2 ^ 31 - 1)) = .error .wildAccess := by
  obtain ⟨wsu, hnew, hinv, hden, hlen, hsize, hfree⟩ :=
    newWordSetU_spec le_rfl (show 1 ≤ nWCacheStatMax by decide)
  have hgrown : Grown 0 wsu := by
    refine ⟨hinv.toTable, hlen, hfree, ⟨0, hsize, le_rfl, by norm_num⟩, fun ws S hS => ?_⟩
    rw [hden, update_apply] at hS
    split_ifs at hS
    cases hS
    exact fun w hw => absurd hw (Finset.notMem_empty w)
  obtain ⟨rs, s, hrun, hs⟩ := run_range' (N := 2 ^ 31 - 1)
    (fun n s h hn => ⟨_, h.step (by omega)⟩) hgrown (zero_add _)
  exact ⟨wsu, rs, s, hnew, hrun, hs.overflow⟩

end WordSetU

end Valgrind.Helgrind
