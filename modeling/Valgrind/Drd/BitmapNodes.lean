import Valgrind.Drd.Bitmap

/-!
# Drd/BitmapNodes — the nodes of the bitmaps: what lookups, insertions and removals do

`Sound` says what holds of the memory between operations: the sets are sorted, each node knows its
key, no node is in two places or in the pool as well, and each cache is coherent with its set.  Under
it the memory is a map `block` from bitmaps and keys to nodes' contents, and each function on nodes
is one update of this map.
-/

namespace Valgrind.Drd

open List KeyedList Function Prod

variable {ι : Type} {v : Option Bm2Ptr}

/-- The number of keys below that of the last second-level block. -/
def lastBlock : ℕ := 2 ^ 52 - 1

namespace Bitmaps

/-- **The memory is sound.** -/
structure Sound (s : Bitmaps ι) : Prop where
  sorted : ∀ i, Sorted (s.bm i).oset
  addr : ∀ i a p, (a, p) ∈ (s.bm i).oset → (s.node p).addr = a
  below : ∀ i a p, (a, p) ∈ (s.bm i).oset → a < lastBlock
  apart : ∀ i j a b p, (a, p) ∈ (s.bm i).oset → (b, p) ∈ (s.bm j).oset → i = j ∧ a = b
  used : ∀ i a p, (a, p) ∈ (s.bm i).oset → p < s.fresh ∧ p ∉ s.nextFree
  free : s.nextFree.Nodup ∧ ∀ p ∈ s.nextFree, p < s.fresh
  cached : ∀ i, Coherent (s.bm i).cache (osetLookup (s.bm i).oset)

/-- The node for a key. -/
def lookup (s : Bitmaps ι) (i : ι) (a1 : UWord) : Option Bm2Ptr := osetLookup (s.bm i).oset a1

/-- What is in the node for a key. -/
def block (s : Bitmaps ι) (i : ι) (a1 : UWord) : Option Bitmap2 := (s.lookup i a1).map s.node

/-- What is in a node that has just been inserted. -/
abbrev newNode (a1 : UWord) : Bitmap2 := ⟨a1, false, .zero⟩

/-- The contents of one node are changed. -/
def setBlock [DecidableEq ι] (B : ι → UWord → Option Bitmap2) (i : ι) (a1 : UWord)
    (n : Option Bitmap2) :
    ι → UWord → Option Bitmap2 := fun j b => if j = i ∧ b = a1 then n else B j b

/-- Two memories differ in their caches only. -/
structure SameNodes (s s' : Bitmaps ι) : Prop where
  node : s'.node = s.node
  oset : ∀ i, (s'.bm i).oset = (s.bm i).oset

section Basic

variable {s s' s'' : Bitmaps ι} {i j : ι} {a1 b : UWord} {p : Bm2Ptr}

theorem SameNodes.refl (s : Bitmaps ι) : SameNodes s s := ⟨rfl, fun _ => rfl⟩

theorem SameNodes.trans (h : SameNodes s s') (h' : SameNodes s' s'') : SameNodes s s'' :=
  ⟨h'.node.trans h.node, fun i => (h'.oset i).trans (h.oset i)⟩

theorem SameNodes.lookup (h : SameNodes s s') : s'.lookup = s.lookup := by
  funext i a1
  rw [Bitmaps.lookup, Bitmaps.lookup, h.oset]

theorem SameNodes.block (h : SameNodes s s') : s'.block = s.block := by
  funext i a1
  rw [Bitmaps.block, Bitmaps.block, h.lookup, h.node]

theorem Sound.lookup_iff (h : Sound s) : s.lookup i a1 = some p ↔ (a1, p) ∈ (s.bm i).oset :=
  (h.sorted i).find_eq_some_iff

theorem block_of_lookup (hp : s.lookup i a1 = some p) : s.block i a1 = some (s.node p) := by
  rw [block, hp]
  rfl

theorem block_eq_none_iff : s.block i a1 = none ↔ s.lookup i a1 = none := Option.map_eq_none_iff

theorem Sound.addr_of_lookup (h : Sound s) (hp : s.lookup i a1 = some p) : (s.node p).addr = a1 :=
  h.addr i a1 p (h.lookup_iff.mp hp)

theorem Sound.below_of_lookup (h : Sound s) (hp : s.lookup i a1 = some p) : a1 < lastBlock :=
  h.below i a1 p (h.lookup_iff.mp hp)

/-- A node is in one place. -/
theorem Sound.lookup_inj (h : Sound s) (hp : s.lookup i a1 = some p) (hp' : s.lookup j b = some p) :
    i = j ∧ a1 = b := h.apart i j a1 b p (h.lookup_iff.mp hp) (h.lookup_iff.mp hp')

/-! ### Changing a node -/

@[simp] theorem modifyNode_bm (s : Bitmaps ι) (p : Bm2Ptr) (f : Bitmap2 → Bitmap2) :
    (s.modifyNode p f).bm = s.bm := rfl

@[simp] theorem modifyNode_lookup (s : Bitmaps ι) (p : Bm2Ptr) (f : Bitmap2 → Bitmap2) :
    (s.modifyNode p f).lookup = s.lookup := rfl

theorem modifyNode_self (s : Bitmaps ι) (p : Bm2Ptr) (f : Bitmap2 → Bitmap2) :
    (s.modifyNode p f).node p = f (s.node p) := update_self ..

theorem modifyNode_of_ne (s : Bitmaps ι) {q : Bm2Ptr} (hq : q ≠ p) (f : Bitmap2 → Bitmap2) :
    (s.modifyNode p f).node q = s.node q := update_of_ne hq ..

/-- The sets and the pool decide most of soundness. -/
theorem Sound.of_oset_eq (h : Sound s) (hoset : ∀ j, (s'.bm j).oset = (s.bm j).oset)
    (haddr : ∀ j b q, (b, q) ∈ (s.bm j).oset → (s'.node q).addr = b)
    (hfree : s'.nextFree = s.nextFree) (hfresh : s'.fresh = s.fresh)
    (hcached : ∀ j, Coherent (s'.bm j).cache (osetLookup (s.bm j).oset)) : Sound s' where
  sorted j := by rw [hoset]; exact h.sorted j
  addr j := by rw [hoset]; exact haddr j
  below j := by rw [hoset]; exact h.below j
  apart j k := by rw [hoset, hoset]; exact h.apart j k
  used j := by rw [hoset, hfree, hfresh]; exact h.used j
  free := by rw [hfree, hfresh]; exact h.free
  cached j := by rw [hoset]; exact hcached j

theorem Sound.modifyNode (h : Sound s) {f : Bitmap2 → Bitmap2} (hp : s.lookup i a1 = some p)
    (hf : (f (s.node p)).addr = a1) : Sound (s.modifyNode p f) := by
  refine h.of_oset_eq (fun _ => rfl) (fun j b q hq => ?_) rfl rfl h.cached
  by_cases hqp : q = p
  · subst hqp
    rw [modifyNode_self, hf]
    exact (h.apart i j a1 b q (h.lookup_iff.mp hp) hq).2
  · rw [modifyNode_of_ne s hqp]
    exact h.addr j b q hq

theorem Sound.bm2LookupExclusive (h : Sound s) (i : ι) (a1 : UWord) :
    s.bm2LookupExclusive i a1 = s.lookup i a1 := by
  rw [Bitmaps.bm2LookupExclusive]
  cases hc : s.bmCacheLookup i a1 with
  | some v => exact h.cached _ _ _ hc
  | none => rfl

end Basic

variable [DecidableEq ι]

section

variable {s s' : Bitmaps ι} {i j : ι} {a1 b : UWord} {p : Bm2Ptr} {f : Bitmap2 → Bitmap2}
  {n : Option Bitmap2}

@[simp] theorem setBlock_self (B : ι → UWord → Option Bitmap2) (i : ι) (a1 : UWord)
    (n : Option Bitmap2) : setBlock B i a1 n i a1 = n := if_pos ⟨rfl, rfl⟩

theorem setBlock_of_ne (B : ι → UWord → Option Bitmap2) (h : ¬ (j = i ∧ b = a1)) :
    setBlock B i a1 n j b = B j b := if_neg h

theorem setBlock_setBlock (B : ι → UWord → Option Bitmap2) (n n' : Option Bitmap2) :
    setBlock (setBlock B i a1 n) i a1 n' = setBlock B i a1 n' := by
  funext j b
  rw [setBlock, setBlock, setBlock]
  split_ifs <;> rfl

theorem setBlock_eq_self {B : ι → UWord → Option Bitmap2} (h : B i a1 = n) :
    setBlock B i a1 n = B := by
  funext j b
  rw [setBlock]
  split_ifs with hj
  · rw [hj.1, hj.2, h]
  · rfl

/-- The contents of the nodes, if one key gets another node and the other keys' nodes stay. -/
theorem block_eq_setBlock
    (hl : ∀ j b, s'.lookup j b = if j = i ∧ b = a1 then v else s.lookup j b)
    (hnode : ∀ j b q, s.lookup j b = some q → ¬ (j = i ∧ b = a1) → s'.node q = s.node q) :
    s'.block = setBlock s.block i a1 (v.map s'.node) := by
  funext j b
  rw [block, hl, setBlock]
  split_ifs with hj
  · rfl
  · rw [block]
    exact Option.map_congr fun q hq => hnode j b q hq hj

/-- One node's contents change. -/
theorem Sound.block_modifyNode (h : Sound s) (hp : s.lookup i a1 = some p) :
    (s.modifyNode p f).block = setBlock s.block i a1 (some (f (s.node p))) := by
  have hblock : (s.modifyNode p f).block
      = setBlock s.block i a1 ((some p).map (s.modifyNode p f).node) := by
    refine block_eq_setBlock (fun j b => ?_) fun j b q hq hj =>
      modifyNode_of_ne s (fun hqp => hj (h.lookup_inj (hqp ▸ hq) hp)) f
    rw [modifyNode_lookup]
    split_ifs with hj
    · rw [hj.1, hj.2, hp]
    · rfl
  rw [hblock, Option.map_some, modifyNode_self]

omit [DecidableEq ι] in
theorem node_of_block {n : Bitmap2} (hp : s.lookup i a1 = some p) (hn : s.block i a1 = some n) :
    s.node p = n := Option.some.inj ((block_of_lookup hp).symm.trans hn)

/-! ### The cache -/

theorem setBm_bm (s : Bitmaps ι) (i : ι) (bm : Bitmap) (j : ι) :
    (s.setBm i bm).bm j = if j = i then bm else s.bm j := update_apply ..

/-- What the set says of a key may be put into the cache. -/
theorem Sound.bmUpdateCache (h : Sound s) (hv : v = s.lookup i a1) :
    Sound (s.bmUpdateCache i a1 v) ∧ SameNodes s (s.bmUpdateCache i a1 v) := by
  have hoset : ∀ j, ((s.bmUpdateCache i a1 v).bm j).oset = (s.bm j).oset := by
    intro j
    rw [Bitmaps.bmUpdateCache, setBm_bm]
    split_ifs with hj
    · rw [hj]
    · rfl
  refine ⟨h.of_oset_eq hoset h.addr rfl rfl fun j => ?_, rfl, hoset⟩
  rw [Bitmaps.bmUpdateCache, setBm_bm]
  split_ifs with hj
  · subst hj
    rw [hv]
    exact (h.cached j).push (fun _ _ => rfl) _
  · exact h.cached j

/-- **A lookup finds the node of the set**, whatever the cache held. -/
theorem Sound.bm2Lookup (h : Sound s) (i : ι) (a1 : UWord) :
    ∃ s', s.bm2Lookup i a1 = (s.lookup i a1, s') ∧ Sound s' ∧ SameNodes s s' := by
  rw [Bitmaps.bm2Lookup]
  cases hc : s.bmCacheLookup i a1 with
  | some v => exact ⟨s, by rw [h.cached _ _ _ hc]; rfl, h, .refl s⟩
  | none => exact ⟨_, rfl, h.bmUpdateCache rfl⟩

/-- The initial cache says that there is no node, for a key that there is none for. -/
theorem coherent_bmInit : Coherent bmInit.cache (osetLookup bmInit.oset) := by
  intro k v hv
  exact (Prod.mk.inj (eq_of_mem_replicate (mem_of_find hv))).2

/-! ### Insertion and removal -/

omit [DecidableEq ι] in
/-- A node that is in no set may leave the pool and be written. -/
theorem Sound.takeNode (h : Sound s) {free : List Bm2Ptr} {n : ℕ} (hnew : ∀ j b, (b, p) ∉ (s.bm j).oset)
    (hsub : free.Sublist s.nextFree) (hn : s.fresh ≤ n) (x : Bitmap2) :
    Sound ({ s with nextFree := free, fresh := n }.modifyNode p fun _ => x) where
  sorted := h.sorted
  addr j b q hq := by
    have hqp : q ≠ p := fun heq => hnew j b (heq ▸ hq)
    rw [modifyNode_of_ne _ hqp]
    exact h.addr j b q hq
  below := h.below
  apart := h.apart
  used j b q hq :=
    ⟨(h.used j b q hq).1.trans_le hn, fun hmem => (h.used j b q hq).2 (hsub.subset hmem)⟩
  free := ⟨h.free.1.sublist hsub, fun q hq => (h.free.2 q (hsub.subset hq)).trans_le hn⟩
  cached := h.cached

omit [DecidableEq ι] in
/-- The pool gives a node that is in no set. -/
theorem Sound.allocNode (h : Sound s) :
    ∃ p s₁, s.allocNode = (p, s₁) ∧ Sound s₁ ∧ s₁.bm = s.bm ∧ (∀ q, q ≠ p → s₁.node q = s.node q)
      ∧ s₁.node p = ⟨0, false, .zero⟩ ∧ (p < s₁.fresh ∧ p ∉ s₁.nextFree)
      ∧ ∀ j b, (b, p) ∉ (s.bm j).oset := by
  rw [Bitmaps.allocNode]
  cases hfree : s.nextFree with
  | nil =>
    have hnew : ∀ j b, (b, s.fresh) ∉ (s.bm j).oset := fun j b hb => (h.used j b _ hb).1.ne rfl
    exact ⟨_, _, rfl, h.takeNode hnew (nil_sublist _) (Nat.le_succ _) _, rfl,
      fun q hq => modifyNode_of_ne _ hq _, modifyNode_self _ _ _,
      ⟨Nat.lt_succ_self _, not_mem_nil⟩, hnew⟩
  | cons p free =>
    have hmem : p ∈ s.nextFree := hfree ▸ mem_cons_self
    have hnew : ∀ j b, (b, p) ∉ (s.bm j).oset := fun j b hb => (h.used j b _ hb).2 hmem
    have hsub : free.Sublist s.nextFree := hfree ▸ sublist_cons_self p free
    have hnot : p ∉ free := (nodup_cons.mp (hfree ▸ h.free.1)).1
    exact ⟨_, _, rfl, h.takeNode hnew hsub le_rfl _, rfl, fun q hq => modifyNode_of_ne _ hq _,
      modifyNode_self _ _ _, ⟨h.free.2 p hmem, hnot⟩, hnew⟩

/-- One bitmap gets another set, in which a key has changed, and the key goes into the cache. -/
theorem Sound.rebind (h : Sound s) {oset : List (UWord × Bm2Ptr)} {t : Bitmaps ι}
    (hl : ∀ b, osetLookup oset b = if b = a1 then v else s.lookup i b)
    (hs' : s' = (t.setBm i { s.bm i with oset }).bmUpdateCache i a1 v) (ht : t.bm = s.bm) :
    (s'.bm i).oset = oset ∧ (∀ j, j ≠ i → s'.bm j = s.bm j)
      ∧ (∀ j b, s'.lookup j b = if j = i ∧ b = a1 then v else s.lookup j b)
      ∧ ∀ j, Coherent (s'.bm j).cache (osetLookup (s'.bm j).oset) := by
  have hi : s'.bm i
      = ⟨((a1, osetLookup oset a1) :: (s.bm i).cache).take drdBitmapNCacheElem, oset⟩ := by
    rw [hs', Bitmaps.bmUpdateCache, setBm_bm, if_pos rfl, setBm_bm, if_pos rfl, hl, if_pos rfl]
  have hne : ∀ j, j ≠ i → s'.bm j = s.bm j := by
    intro j hj
    rw [hs', Bitmaps.bmUpdateCache, setBm_bm, if_neg hj, setBm_bm, if_neg hj, ht]
  refine ⟨by rw [hi], hne, fun j b => ?_, fun j => ?_⟩ <;> by_cases hj : j = i
  · subst hj
    simp only [lookup, hi, hl, true_and]
  · rw [if_neg fun hb => hj hb.1, lookup, lookup, hne j hj]
  · subst hj
    rw [hi]
    exact (h.cached j).push (fun b hb => (hl b).trans (if_neg hb)) _
  · rw [hne j hj]
    exact h.cached j

/-- A node that is in no set is put into one, and into the cache. -/
theorem Sound.putNode (h : Sound s) (hnone : s.lookup i a1 = none) (ha : a1 < lastBlock)
    (hp : p < s.fresh ∧ p ∉ s.nextFree) (hnew : ∀ j b, (b, p) ∉ (s.bm j).oset)
    (haddr : (s.node p).addr = a1) (hs' : s' = (s.setBm i { s.bm i with
      oset := KeyedList.insert (s.bm i).oset (a1, p) }).bmUpdateCache i a1 (some p)) :
    Sound s' ∧ (∀ j, j ≠ i → (s'.bm j).oset = (s.bm j).oset)
      ∧ ∀ j b, s'.lookup j b = if j = i ∧ b = a1 then some p else s.lookup j b := by
  obtain ⟨hi, hne, hfound, hcached⟩ :=
    h.rebind ((h.sorted i).find_insert (e := (a1, p)) hnone) hs' rfl
  have hmem : ∀ j b q, (b, q) ∈ (s'.bm j).oset →
      (j = i ∧ b = a1 ∧ q = p) ∨ (b, q) ∈ (s.bm j).oset := by
    intro j b q hq
    by_cases hj : j = i
    · subst hj
      rw [hi, mem_insert, Prod.mk.injEq] at hq
      exact hq.imp (fun h => ⟨rfl, h⟩) id
    · exact .inr (hne j hj ▸ hq)
  have hrest : s'.node = s.node ∧ s'.nextFree = s.nextFree ∧ s'.fresh = s.fresh := by
    rw [hs']
    exact ⟨rfl, rfl, rfl⟩
  obtain ⟨hnode, hfree, hfresh⟩ := hrest
  refine ⟨{ sorted := fun j => ?_, addr := fun j b q hq => ?_, below := fun j b q hq => ?_
            apart := fun j k b c q hq hq' => ?_, used := fun j b q hq => ?_
            free := ?_, cached := hcached }, fun j hj => by rw [hne j hj], hfound⟩
  · by_cases hj : j = i
    · subst hj
      rw [hi]
      exact (h.sorted j).insert hnone
    · rw [hne j hj]
      exact h.sorted j
  · rw [hnode]
    rcases hmem j b q hq with ⟨-, rfl, rfl⟩ | hq
    · exact haddr
    · exact h.addr j b q hq
  · rcases hmem j b q hq with ⟨-, rfl, -⟩ | hq
    · exact ha
    · exact h.below j b q hq
  · rcases hmem j b q hq with ⟨rfl, rfl, rfl⟩ | hq <;> rcases hmem k c _ hq' with ⟨rfl, rfl, hqp⟩ | hq'
    · exact ⟨rfl, rfl⟩
    · exact absurd hq' (hnew k c)
    · exact absurd (hqp ▸ hq) (hnew j b)
    · exact h.apart j k b c q hq hq'
  · rw [hfree, hfresh]
    rcases hmem j b q hq with ⟨-, -, rfl⟩ | hq
    · exact hp
    · exact h.used j b q hq
  · rw [hfree, hfresh]
    exact h.free

/-- **An insertion gives the key a node without accesses.** -/
theorem Sound.bm2Insert (h : Sound s) (hnone : s.lookup i a1 = none) (ha : a1 < lastBlock) :
    ∃ p s', s.bm2Insert i a1 = .ok (p, s') ∧ Sound s' ∧ s'.lookup i a1 = some p
      ∧ s'.block = setBlock s.block i a1 (some (newNode a1))
      ∧ ∀ j, j ≠ i → (s'.bm j).oset = (s.bm j).oset := by
  obtain ⟨p, s₁, halloc, h₁, hbm, hnode, hzero, hfree, hnew⟩ := h.allocNode
  obtain ⟨s₂, hs₂⟩ : ∃ s₂, s₂ = s₁.modifyNode p fun n => { n with addr := a1 } := ⟨_, rfl⟩
  have hbm₂ : s₂.bm = s.bm := by rw [hs₂, modifyNode_bm, hbm]
  have h₂ : Sound s₂ := by
    rw [hs₂]
    exact h₁.takeNode (hbm ▸ hnew) (List.Sublist.refl _) le_rfl _
  have hnode₂ : s₂.node p = newNode a1 := by rw [hs₂, modifyNode_self, hzero]
  have hlookup : s₂.lookup = s.lookup := by
    funext j b
    rw [lookup, lookup, hbm₂]
  have hfree₂ : p < s₂.fresh ∧ p ∉ s₂.nextFree := by rwa [hs₂]
  obtain ⟨s', hs'⟩ : ∃ s', s' = (s₂.setBm i { s₂.bm i with
      oset := insert (s₂.bm i).oset (a1, p) }).bmUpdateCache i a1 (some p) := ⟨_, rfl⟩
  obtain ⟨hsound, hne, hfound⟩ := h₂.putNode (hlookup ▸ hnone) ha hfree₂ (hbm₂ ▸ hnew)
    (by rw [hnode₂]) hs'
  have hins : osetInsert (s₂.bm i).oset (a1, p)
      = .ok (insert (s₂.bm i).oset (a1, p)) := by
    rw [osetInsert, if_neg]
    simpa [lookup, hbm₂] using hnone
  have hnode' : s'.node = s₂.node := by
    rw [hs']
    rfl
  refine ⟨p, s', ?_, hsound, by rw [hfound, if_pos ⟨rfl, rfl⟩], ?_, fun j hj => by rw [hne j hj, hbm₂]⟩
  · rw [Bitmaps.bm2Insert, halloc]
    dsimp only
    rw [← hs₂, hins, hs']
    rfl
  · rw [hlookup] at hfound
    rw [block_eq_setBlock hfound fun j b q hq _ => ?_, Option.map_some, hnode', hnode₂]
    have hqp : q ≠ p := by
      rintro rfl
      exact hnew j b (h.lookup_iff.mp hq)
    rw [hnode', hs₂, modifyNode_of_ne _ hqp, hnode q hqp]

theorem Sound.bm2InsertClear (h : Sound s) (hnone : s.lookup i a1 = none) (ha : a1 < lastBlock) :
    ∃ p s', s.bm2InsertClear i a1 = .ok (p, s') ∧ Sound s' ∧ s'.lookup i a1 = some p
      ∧ s'.block = setBlock s.block i a1 (some (newNode a1))
      ∧ ∀ j, j ≠ i → (s'.bm j).oset = (s.bm j).oset := by
  obtain ⟨p, s', hok, hs', hp, hblock, hoset⟩ := h.bm2Insert hnone ha
  refine ⟨p, s'.bm2Clear p, ?_, hs'.modifyNode hp (hs'.addr_of_lookup hp), hp, ?_, hoset⟩
  · rw [Bitmaps.bm2InsertClear, hok]
    rfl
  · have hnode : s'.node p = newNode a1 := node_of_block hp (by rw [hblock, setBlock_self])
    rw [bm2Clear, hs'.block_modifyNode hp, hblock, setBlock_setBlock, hnode]

/-- **A lookup that inserts** leaves the node that is there, or makes a new one. -/
theorem Sound.bm2LookupOrInsert (h : Sound s) (i : ι) (ha : a1 < lastBlock) :
    ∃ p s', s.bm2LookupOrInsert i a1 = .ok (p, s') ∧ Sound s' ∧ s'.lookup i a1 = some p
      ∧ s'.block = setBlock s.block i a1 (some ((s.block i a1).getD (newNode a1)))
      ∧ ∀ j, j ≠ i ∨ (s.lookup i a1).isSome → (s'.bm j).oset = (s.bm j).oset := by
  have hfound : ∀ {p}, s.lookup i a1 = some p →
      s.block = setBlock s.block i a1 (some ((s.block i a1).getD (newNode a1))) := by
    intro p hp
    rw [block_of_lookup hp, Option.getD_some, setBlock_eq_self (block_of_lookup hp)]
  have hmissing : s.lookup i a1 = none → setBlock s.block i a1 (some (newNode a1))
      = setBlock s.block i a1 (some ((s.block i a1).getD (newNode a1))) := by
    intro hnone
    rw [block_eq_none_iff.mpr hnone]
    rfl
  have hother : s.lookup i a1 = none → ∀ j, j ≠ i ∨ (s.lookup i a1).isSome → j ≠ i := by
    intro hnone j hj
    simpa [hnone] using hj
  rw [Bitmaps.bm2LookupOrInsert, ← lookup]
  cases hc : s.bmCacheLookup i a1 with
  | some v =>
    have hv := h.cached _ _ _ hc
    cases v with
    | some p => exact ⟨p, s, rfl, h, hv.symm, hfound hv.symm, fun _ _ => rfl⟩
    | none =>
      obtain ⟨p, s', hok, hs', hp, hblock, hoset⟩ := h.bm2InsertClear hv.symm ha
      exact ⟨p, s', hok, hs', hp, hblock.trans (hmissing hv.symm),
        fun j hj => hoset j (hother hv.symm j hj)⟩
  | none =>
    cases hl : s.lookup i a1 with
    | some p =>
      obtain ⟨hs', hsame⟩ := h.bmUpdateCache hl.symm
      exact ⟨p, _, rfl, hs', by rw [hsame.lookup, hl], hsame.block.trans (hfound hl),
        fun j _ => hsame.oset j⟩
    | none =>
      obtain ⟨p, s₁, hok, hs₁, hp, hblock, hoset⟩ := h.bm2InsertClear hl ha
      obtain ⟨hs', hsame⟩ := hs₁.bmUpdateCache hp.symm
      simp only [hok]
      refine ⟨p, _, rfl, hs', by rw [hsame.lookup, hp], hsame.block.trans (hblock.trans (hmissing hl)),
        fun j hj => (hsame.oset j).trans (hoset j (hother hl j (hl ▸ hj)))⟩

/-- Nodes of one bitmap are given back to the pool. -/
theorem Sound.release (h : Sound s) {freed : List Bm2Ptr} (hne : ∀ j, j ≠ i → s'.bm j = s.bm j)
    (hsub : (s'.bm i).oset.Sublist (s.bm i).oset)
    (hin : ∀ q ∈ freed, ∃ b, (b, q) ∈ (s.bm i).oset ∧ (b, q) ∉ (s'.bm i).oset)
    (hnodup : freed.Nodup) (hcached : Coherent (s'.bm i).cache (osetLookup (s'.bm i).oset))
    (hrest : s'.node = s.node ∧ s'.nextFree = freed ++ s.nextFree ∧ s'.fresh = s.fresh) :
    Sound s' := by
  obtain ⟨hnode, hfree, hfresh⟩ := hrest
  have hmem : ∀ j b q, (b, q) ∈ (s'.bm j).oset → (b, q) ∈ (s.bm j).oset := by
    intro j b q hq
    by_cases hj : j = i
    · subst hj
      exact hsub.subset hq
    · exact hne j hj ▸ hq
  refine ⟨fun j => ?_, fun j b q hq => ?_, fun j b q hq => h.below j b q (hmem j b q hq),
    fun j k b c q hq hq' => h.apart j k b c q (hmem j b q hq) (hmem k c q hq'),
    fun j b q hq => ?_, ?_, fun j => ?_⟩
  · by_cases hj : j = i
    · subst hj
      exact (h.sorted j).sublist hsub
    · rw [hne j hj]
      exact h.sorted j
  · rw [hnode]
    exact h.addr j b q (hmem j b q hq)
  · obtain ⟨hlt, hnot⟩ := h.used j b q (hmem j b q hq)
    rw [hfree, hfresh, mem_append, not_or]
    refine ⟨hlt, fun hfreed => ?_, hnot⟩
    -- a node that was freed is in no set
    obtain ⟨c, hc, hgone⟩ := hin q hfreed
    obtain ⟨rfl, rfl⟩ := h.apart j i b c q (hmem j b q hq) hc
    exact hgone hq
  · rw [hfree, hfresh]
    have hused : ∀ q ∈ freed, q < s.fresh ∧ q ∉ s.nextFree := fun q hq =>
      have ⟨b, hb, _⟩ := hin q hq
      h.used i b q hb
    refine ⟨nodup_append.mpr ⟨hnodup, h.free.1, ?_⟩, forall_mem_append.mpr
      ⟨fun q hq => (hused q hq).1, h.free.2⟩⟩
    rintro q hq r hr rfl
    exact (hused q hq).2 hr
  · by_cases hj : j = i
    · subst hj
      exact hcached
    · rw [hne j hj]
      exact h.cached j

/-- **A removal takes the node away**, and gives it back to the pool. -/
theorem Sound.bm2Remove (h : Sound s) (hp : s.lookup i a1 = some p) :
    ∃ s', s.bm2Remove i a1 = .ok s' ∧ Sound s' ∧ s'.block = setBlock s.block i a1 none
      ∧ (s'.bm i).oset = (s.bm i).oset.filter (fun e => e.1 ≠ a1) := by
  obtain ⟨s', hs'⟩ : ∃ s', s' = ({ s with nextFree := p :: s.nextFree }.setBm i
      { s.bm i with oset := (s.bm i).oset.filter fun e => e.1 ≠ a1 }).bmUpdateCache i a1 none :=
    ⟨_, rfl⟩
  have hok : s.bm2Remove i a1 = .ok s' := by
    have hl : osetLookup (s.bm i).oset a1 = some p := hp
    rw [Bitmaps.bm2Remove, hl, hs']
  obtain ⟨hi, hne, hfound, hcached⟩ :=
    h.rebind (find_filter (s.bm i).oset a1) hs' rfl
  have hrest : s'.node = s.node ∧ s'.nextFree = [p] ++ s.nextFree ∧ s'.fresh = s.fresh := by
    rw [hs']
    exact ⟨rfl, rfl, rfl⟩
  refine ⟨s', hok, h.release hne (hi ▸ filter_sublist) (fun q hq => ?_) (nodup_singleton p)
    (hcached i) hrest, block_eq_setBlock hfound fun _ _ _ _ _ => by rw [hrest.1], hi⟩
  obtain rfl := mem_singleton.mp hq
  exact ⟨a1, h.lookup_iff.mp hp, by simp [hi]⟩

/-- **A bitmap that is cleaned up and initialised again** has no nodes; they are in the pool. -/
theorem Sound.cleanupInit (h : Sound s) (i : ι) : Sound ((s.bmCleanup i).setBm i bmInit)
      ∧ ((s.bmCleanup i).setBm i bmInit).block = fun j b => if j = i then none else s.block j b := by
  obtain ⟨s', hs'⟩ : ∃ s', s' = (s.bmCleanup i).setBm i bmInit := ⟨_, rfl⟩
  have hbm : ∀ j, s'.bm j = if j = i then bmInit else s.bm j := by
    intro j
    rw [hs', setBm_bm, bmCleanup, setBm_bm]
    split_ifs <;> rfl
  have hi : s'.bm i = bmInit := by rw [hbm, if_pos rfl]
  have hnodup : ((s.bm i).oset.map snd).reverse.Nodup := by
    rw [nodup_reverse, nodup_iff_pairwise_ne, pairwise_map]
    refine List.Pairwise.imp_of_mem (fun {x y} hx hy hlt heq => ?_) (h.sorted i)
    exact hlt.ne (h.apart i i x.1 y.1 y.2 (heq ▸ hx) hy).2
  have hrest : s'.node = s.node ∧ s'.nextFree = ((s.bm i).oset.map snd).reverse ++ s.nextFree
      ∧ s'.fresh = s.fresh := by
    rw [hs']
    exact ⟨rfl, rfl, rfl⟩
  rw [← hs']
  refine ⟨h.release (fun j hj => by rw [hbm, if_neg hj]) (hi ▸ nil_sublist _) ?_ hnodup
    (hi ▸ coherent_bmInit) hrest, ?_⟩
  · intro q hq
    rw [mem_reverse, mem_map] at hq
    obtain ⟨⟨b, q⟩, he, rfl⟩ := hq
    exact ⟨b, he, hi ▸ not_mem_nil⟩
  · funext j b
    rw [block, lookup, hbm, hrest.1]
    split_ifs <;> rfl

end

end Bitmaps

end Valgrind.Drd
