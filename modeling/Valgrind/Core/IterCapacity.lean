import Valgrind.Core.OSet
import Valgrind.Core.WordFM

/-!
# Core/IterCapacity — how many entries a 32-slot iterator stack can walk

`STACK_MAX` and `WFM_STKMAX` are 32, "at most 2**32 entries can be iterated over".  The stack holds
the nodes on the way whose left subtree is not yet done, so what has to fit is the *left depth* of
the tree.  An AVL tree of height `h` may have as few as `fib (h + 2) - 1` entries, and its left
depth may be `h`: from `fib 35 - 1 = 9227464` entries on, an iteration may fail its assertion.

* `iteration_capacity` — an iteration delivers every entry, once and in order, iff the left depth is
  at most 32; with fewer than 9227464 entries it always is;
* `positioned_iteration` — an iteration from any key on delivers the entries not below it;
* `iteration_overflow` — the bound is sharp: a set of 9227464 words that cannot be walked.
-/

namespace Valgrind

open List OSet SortedList.Ordered AvlTree Nat
open Refinement (run absRun Admits)
open SortedList (Ordered)

/-- The size of the smallest AVL trees of height 33. -/
def iterLimit : ℕ := 9227464

/-- **Fewer entries than the limit fit the stack.** -/
theorem leftDepth_le_of_length_lt {α : Type} {t : AvlTree α} (h : t.Balanced)
    (hlen : t.toList.length < iterLimit) : t.leftDepth ≤ stackMax := by
  by_contra hdepth
  have hheight : 33 ≤ t.height := by
    have := t.leftDepth_le_height
    unfold stackMax at hdepth
    omega
  have hfib : fib 35 ≤ fib (t.height + 2) := fib_mono (by omega)
  have h35 : fib 35 = 9227465 := by norm_num
  have hle := h.fib_le
  unfold iterLimit at hlen
  omega

namespace OSet

variable {κ α : Type} [DecidableEq α]

/-- A complete iteration delivers the elements of `s`, each once and in increasing order. -/
def Walks (ks : KeySpec κ α) (ord : κ → κ → Ordering) (t : OSet κ α) (s : Finset α) : Prop :=
  ∃ l t', t.iterate = .ok (l, t') ∧ Ordered ord ks.keyOf l ∧ l.toFinset = s

variable {ks : KeySpec κ α} {ord : κ → κ → Ordering} {t : OSet κ α} {s : Finset α}

theorem walks_iff (h : Represents ks ord t s) : Walks ks ord t s ↔ t.root.leftDepth ≤ stackMax := by
  constructor
  · rintro ⟨l, t', hiter, -⟩
    by_contra hdepth
    rw [(iterate_spec _).2 (not_le.mp hdepth)] at hiter
    cases hiter
  · intro hdepth
    obtain ⟨t', ht'⟩ := (iterate_spec _).1 hdepth
    exact ⟨_, t', ht', h.ordered, h.toFinset_eq⟩

/-- An iteration from `k` on delivers the elements of `s` that are not below `k`, each once and in
increasing order. -/
def WalksFrom (ks : KeySpec κ α) (ord : κ → κ → Ordering) (t : OSet κ α) (s : Finset α) (k : κ) :
    Prop :=
  ∃ l t', t.iterateAt k = .ok (l, t') ∧ Ordered ord ks.keyOf l
    ∧ l.toFinset = s.filter fun e => ord k (ks.keyOf e) ≠ .gt

theorem walksFrom (ho : ks.Orders ord) (h : Represents ks ord t s)
    (hfit : t.root.height ≤ stackMax) (k : κ) : WalksFrom ks ord t s k := by
  have := ho.transCmp
  have hcmp : (fun e => compare (t.cmpKeyNode k e) 0) = fun e => ord k (ks.keyOf e) := by
    rw [h.spec_eq]
    exact funext (ho.code.cmp_eq k)
  obtain ⟨t', ht'⟩ := drain_seek advances_next (h.ordered.cut k) hfit
    (fun st => { t with stack := st }) fun _ => rfl
  refine ⟨_, t', by simpa [iterateAt, resetIterAt, hcmp] using ht', ?_, ?_⟩
  · exact h.ordered.sublist (by simp)
  · ext e
    simp [← h.toFinset_eq]

end OSet

namespace WordFM

/-- A complete iteration delivers the bindings `m`, each once and in increasing order of keys. -/
def Walks (cmp : UWord → UWord → ℤ) (fm : WordFM Addr UWord UWord) (m : Bindings UWord UWord) :
    Prop :=
  ∃ l fm', fm.iterate = .ok (l, fm') ∧ Ordered (keyOrd cmp) Prod.fst l
    ∧ ∀ b, b ∈ l ↔ ∃ k, m k = some b

variable {cmp : UWord → UWord → ℤ} [Std.TransCmp (keyOrd cmp)] {fm : WordFM Addr UWord UWord}
  {m : Bindings UWord UWord}

theorem walks_iff (h : Represents cmp fm m) : Walks cmp fm m ↔ fm.root.leftDepth ≤ stackMax := by
  constructor
  · rintro ⟨l, fm', hiter, -⟩
    by_contra hdepth
    rw [(iterate_spec _).2 (not_le.mp hdepth)] at hiter
    cases hiter
  · intro hdepth
    obtain ⟨fm', hfm'⟩ := (iterate_spec _).1 hdepth
    refine ⟨_, fm', hfm', ?_, h.mem_bindings_iff⟩
    rw [iff_keys, map_map]
    exact iff_keys.mp h.ordered

/-- An iteration from `k` on delivers the bindings of `m` that are not below `k`, each once and in
increasing order of keys. -/
def WalksFrom (cmp : UWord → UWord → ℤ) (fm : WordFM Addr UWord UWord) (m : Bindings UWord UWord)
    (k : UWord) : Prop :=
  ∃ l fm', fm.iterateAt k = .ok (l, fm') ∧ Ordered (keyOrd cmp) Prod.fst l
    ∧ ∀ b, b ∈ l ↔ (∃ k', m k' = some b) ∧ keyOrd cmp k b.1 ≠ .gt

theorem walksFrom (h : Represents cmp fm m) (hfit : fm.root.height ≤ stackMax) (k : UWord) :
    WalksFrom cmp fm m k := by
  obtain ⟨fm', hfm'⟩ := drain_seek advances_nextIterFM (h.ordered.cut k) hfit
    (fun st => { fm with stack := st }) fun _ => rfl
  have hcmp : (fun n : FMNode Addr UWord UWord => compare 0 (fm.cmp n.key k))
      = fun n => keyOrd cmp k n.key := by
    rw [h.cmp_eq]
    exact funext (fmCode_cmp k)
  refine ⟨_, fm', by simpa [iterateAt, initIterAtFM, hcmp] using hfm', ?_, fun b => ?_⟩
  · rw [iff_keys, map_map]
    exact iff_keys.mp (h.ordered.sublist (by simp))
  · rw [← h.mem_bindings_iff]
    simp only [mem_map, mem_filter]
    constructor
    · rintro ⟨n, ⟨hn, hk⟩, rfl⟩
      exact ⟨⟨n, hn, rfl⟩, by simpa [FMNode.binding] using hk⟩
    · rintro ⟨⟨n, hn, rfl⟩, hk⟩
      exact ⟨n, ⟨hn, by simpa [FMNode.binding] using hk⟩, rfl⟩

end WordFM

section

variable {κ α : Type} [DecidableEq α] {ks : KeySpec κ α}
  {ord : κ → κ → Ordering} (ho : ks.Orders ord) {setOps : List (OSet.Op κ α)}
  (hset : Admits step (act ks ord) (OSet.Absent ks ord) (create ks) ∅ setOps)
  {kCmp : Option (UWord → UWord → ℤ)} (hcmp : WordFM.TotalOrder kCmp) {mapOps : List WordFM.Op}
include ho hset hcmp

/-- **What an iteration can walk.**  Of every set and every map that insertions and removals make,
a complete iteration delivers each entry once and in increasing order iff the left depth of the tree
is at most 32.  With fewer than 9227464 entries it is. -/
theorem iteration_capacity
    (hmap : Admits WordFM.step (WordFM.act (keyOrd (kCmp.getD cmpUnsignedWords))) WordFM.Fresh
      (WordFM.newWordFM kCmp) (fun _ => none) mapOps) :
    let s := absRun (act ks ord) ∅ setOps
    let cmp := kCmp.getD cmpUnsignedWords
    let m := absRun (WordFM.act (keyOrd cmp)) (fun _ => none) mapOps
    (∃ t, run step (create ks) setOps = .ok (s.1, t)
      ∧ (OSet.Walks ks ord t s.2 ↔ t.root.leftDepth ≤ stackMax)
      ∧ (s.2.card < iterLimit → OSet.Walks ks ord t s.2))
    ∧ ∃ fm, run WordFM.step (WordFM.newWordFM kCmp) mapOps = .ok (m.1, fm)
      ∧ (WordFM.Walks cmp fm m.2 ↔ fm.root.leftDepth ≤ stackMax)
      ∧ ({b | ∃ k, m.2 k = some b}.ncard < iterLimit → WordFM.Walks cmp fm m.2) := by
  intro s cmp m
  constructor
  · have := ho.transCmp
    obtain ⟨t, hrun, h⟩ := (refines_step ho).run (represents_create ks ord) hset
    refine ⟨t, hrun, walks_iff h, fun hcard => ?_⟩
    refine (walks_iff h).mpr (leftDepth_le_of_length_lt h.balanced ?_)
    rwa [← toFinset_card_of_nodup h.ordered.nodup, h.toFinset_eq]
  · have := hcmp.transCmp
    obtain ⟨fm, hrun, h⟩ := WordFM.refines_step.run (WordFM.holds_newFM cmp) hmap
    refine ⟨fm, hrun, WordFM.walks_iff h.toRepresents, fun hcard => ?_⟩
    refine (WordFM.walks_iff h.toRepresents).mpr (leftDepth_le_of_length_lt h.balanced ?_)
    rwa [← h.ncard_eq]

/-- **An iteration may start anywhere.**  Of every set and every map of height at most 32 that
insertions and removals make, an iteration from any key on, present or not, delivers the entries
that are not below the key, each once and in increasing order. -/
theorem positioned_iteration
    (hmap : Admits WordFM.step (WordFM.act (keyOrd (kCmp.getD cmpUnsignedWords))) WordFM.Fresh
      (WordFM.newWordFM kCmp) (fun _ => none) mapOps) :
    let s := absRun (act ks ord) ∅ setOps
    let cmp := kCmp.getD cmpUnsignedWords
    let m := absRun (WordFM.act (keyOrd cmp)) (fun _ => none) mapOps
    (∃ t, run step (create ks) setOps = .ok (s.1, t)
      ∧ (t.root.height ≤ 32 → ∀ k, OSet.WalksFrom ks ord t s.2 k))
    ∧ ∃ fm, run WordFM.step (WordFM.newWordFM kCmp) mapOps = .ok (m.1, fm)
      ∧ (fm.root.height ≤ 32 → ∀ k, WordFM.WalksFrom cmp fm m.2 k) := by
  intro s cmp m
  have := hcmp.transCmp
  obtain ⟨t, hrun, h⟩ := (refines_step ho).run (represents_create ks ord) hset
  obtain ⟨fm, hrun', h'⟩ := WordFM.refines_step.run (WordFM.holds_newFM cmp) hmap
  exact ⟨⟨t, hrun, walksFrom ho h⟩, fm, hrun', WordFM.walksFrom h'.toRepresents⟩

end

/-- A map that nothing was done to. -/
theorem admits_nil_map : Admits WordFM.step (WordFM.act (keyOrd cmpUnsignedWords)) WordFM.Fresh
    (WordFM.newWordFM none) (fun _ => none) [] := trivial

theorem iteration_capacity_words :
    ∃ t, run step (create wordSpec) [.insert 1]
        = .ok ((absRun (act wordSpec compare) ∅ [.insert 1]).1, t)
      ∧ OSet.Walks wordSpec compare t
        (absRun (act wordSpec compare) ∅ [.insert 1]).2 := by
  have hset : Admits step (act wordSpec compare) (OSet.Absent wordSpec compare)
      (create wordSpec) ∅ [.insert 1] := ⟨by simp [OSet.Absent], fun _ _ _ => trivial⟩
  obtain ⟨⟨t, hrun, -, hwalk⟩, -⟩ :=
    iteration_capacity orders_wordSpec hset
      WordFM.totalOrder_none admits_nil_map
  exact ⟨t, hrun, hwalk (by simp [absRun, act, iterLimit])⟩

/-- A set of the words 1 and 3, from 2 on. -/
theorem positioned_iteration_words :
    let s := absRun (act wordSpec compare) ∅ [.insert 1, .insert 3]
    ∃ t, run step (create wordSpec) [.insert 1, .insert 3] = .ok (s.1, t)
      ∧ t.root.height ≤ 32 ∧ OSet.WalksFrom wordSpec compare t s.2 2 := by
  have hset : Admits step (act wordSpec compare) (OSet.Absent wordSpec compare)
      (create wordSpec) ∅ [.insert 1, .insert 3] :=
    admits_inserts (l := [1, 3]) wordSpec compare _ (by simp [wordSpec]) (by simp)
  obtain ⟨⟨t, hrun, hwalk⟩, -⟩ :=
    positioned_iteration orders_wordSpec hset
      WordFM.totalOrder_none admits_nil_map
  have hheight : (run step (create wordSpec) [.insert 1, .insert 3]).map
      (·.2.root.height) = .ok 2 := rfl
  rw [hrun] at hheight
  have hheight : t.root.height = 2 := Except.ok.inj hheight
  exact ⟨t, hrun, by omega, hwalk (by omega) 2⟩

/-! ## A set that cannot be walked -/

namespace OSet

variable {κ α : Type} [DecidableEq α] {ks : KeySpec κ α} {ord : κ → κ → Ordering}

/-- Inserting the leaves of a growing balanced tree in turn builds exactly that tree. -/
theorem run_inserts_grows (ho : ks.Orders ord) {as : List α} {u : AvlTree α} {t : OSet κ α}
    (ht : t.toKeySpec = ks) (h : AvlTree.Grows t.root as u) (hord : Ordered ord ks.keyOf u.toList) :
    ∃ t' rs, run step t (inserts κ as) = .ok (rs, t') ∧ t'.root = u := by
  have := ho.transCmp
  generalize hroot : t.root = r at h
  induction h generalizing t with
  | refl _ => exact ⟨t, [], rfl, hroot⟩
  | @step r r' u a as hb ha hg ih =>
    have hbal : r'.Balanced := by
      cases hg with
      | refl h => exact h
      | step h _ _ => exact h
    have hins := AvlCode.avlInsert_addLeaf ho.code duplicate () ha hb hbal (hord.sublist hg.sublist)
    obtain ⟨t', rs, hrun, hu⟩ :=
      @ih { t with root := r', nElems := (t.nElems + 1) % 2 ^ 32, stack := [] } ht hord rfl
    have hstep : step t (.insert a)
        = .ok (none, { t with root := r', nElems := (t.nElems + 1) % 2 ^ 32, stack := [] }) := by
      rw [step, insert_eq, ht, hroot, hins]
      simp
    exact ⟨t', none :: rs, Refinement.run_cons hstep hrun, hu⟩

end OSet

/-- **The limit is sharp**: a set of 9227464 words whose iteration fails its assertion. -/
theorem iteration_overflow :
    ∃ ops, Admits step (act wordSpec compare) (OSet.Absent wordSpec compare)
        (create wordSpec) ∅ ops
      ∧ ∃ t rs, run step (create wordSpec) ops = .ok (rs, t)
        ∧ t.root.toList.length = iterLimit ∧ iterLimit < 2 ^ 32
        ∧ t.iterate = .error .assertion := by
  obtain ⟨as, has⟩ := (balanced_fibTree 33 0).exists_grows
  have hlist := toList_fibTree 33 0
  have hperm := has.perm
  rw [hlist, toList_nil, append_nil] at hperm
  have hord : Ordered compare wordSpec.keyOf (fibTree 33 0).toList := by
    rw [hlist]
    exact (pairwise_lt_range' (s := 0)).imp compare_lt_iff_lt.mpr
  obtain ⟨t, rs, hrun, hroot⟩ := run_inserts_grows orders_wordSpec
    (t := create wordSpec) rfl has hord
  refine ⟨_, admits_inserts wordSpec compare _ ?_ (by simp), t, rs, hrun, ?_, ?_,
    t.iterate_spec.2 ?_⟩
  · exact (hperm.nodup_iff.mp nodup_range').imp fun h => by simpa [wordSpec] using h
  · rw [hroot, hlist, length_range']
    norm_num [iterLimit]
  · norm_num [iterLimit]
  · rw [hroot, leftDepth_fibTree]
    decide

end Valgrind
