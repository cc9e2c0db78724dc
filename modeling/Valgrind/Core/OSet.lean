import Valgrind.Core.AvlInvariant
import Valgrind.Core.TreeIterator
import Valgrind.Foundations.Refinement

/-!
# Core/OSet — `coregrind/m_oset.c`: ordered sets

An `OSet` holds elements in an AVL tree ordered by a key inside the element.  The key is compared by
a function the creator gives, or, if that is NULL, as an unsigned word.  An element stands for the
pointer the caller holds; allocation of nodes, their magic numbers and the pool allocator are not
part of the model.

`Represents` relates a set to the `Finset` of its elements.  Every insertion of an absent key and
every removal keeps it (`refines_step`), so it holds along every run: `ordered_set`.  `nElems` is a
`UInt`, which counts modulo 2^32.
-/

namespace Valgrind

open List Std.OrientedCmp
open AvlTree (nil node leaf)
open Refinement (run absRun Admits Refines)
open SortedList (Ordered)
open Std (TransCmp)

variable {κ α : Type} {l : List α} {ord : κ → κ → Ordering}

/-- What the creator of a set says about its elements. -/
structure KeySpec (κ α : Type) where
  /-- The key of an element: what lies at `keyOff`. -/
  keyOf : α → κ
  /-- A key read as a word. -/
  wordOf : κ → UWord
  /-- `cmp`: compare a key and an element, or NULL. -/
  cmp : Option (κ → α → ℤ)

/-- `struct _OSet`. -/
structure OSet (κ α : Type) extends KeySpec κ α where
  nElems : ℕ
  root : AvlTree α
  stack : IterStack α

/-! ## The code -/

/-- `fast_cmp`. -/
def fastCmp (w1 w2 : UWord) : ℤ :=
  if w1 > w2 then 1
  else if w1 < w2 then -1
  else 0

namespace KeySpec

/-- `slow_cmp` or `fast_cmp`, whichever the set uses. -/
def cmpKeyNode (ks : KeySpec κ α) (k : κ) (e : α) : ℤ :=
  match ks.cmp with
  | some cmp => cmp k e
  | none => fastCmp (ks.wordOf k) (ks.wordOf (ks.keyOf e))

/-- The AVL code of `m_oset.c`. -/
def code [DecidableEq α] (ks : KeySpec κ α) : AvlCode κ α where
  key := ks.keyOf
  cmp k e := compare (ks.cmpKeyNode k e) 0
  same x y := x = y
  checked := false

/-- Keys are totally ordered: by the comparison the creator chose, or as words. -/
inductive Orders (ks : KeySpec κ α) : (κ → κ → Ordering) → Prop
  | chosen {cmp : κ → α → ℤ} {ord : κ → κ → Ordering} : ks.cmp = some cmp → TransCmp ord →
    (∀ k e, compare (cmp k e) 0 = ord k (ks.keyOf e)) → Orders ks ord
  | words : ks.cmp = none → Orders ks fun k k' => compare (ks.wordOf k) (ks.wordOf k')

theorem compare_fastCmp (w1 w2 : UWord) : compare (fastCmp w1 w2) 0 = compare w1 w2 := by
  unfold fastCmp
  rcases lt_trichotomy w1 w2 with h | rfl | h
  · rw [if_neg (not_lt_of_gt h), if_pos h, compare_lt_iff_lt.mpr h]
    rfl
  · simp
  · rw [if_pos h, compare_gt_iff_gt.mpr h]
    rfl

theorem Orders.transCmp {ks : KeySpec κ α} (h : ks.Orders ord) : TransCmp ord := by
  cases h with
  | chosen _ htrans _ => exact htrans
  | words _ =>
    exact { eq_swap := fun {a b} => eq_swap
            isLE_trans := fun {a b c} => Std.TransCmp.isLE_trans }

/-- The AVL code searches by the order of keys. -/
theorem Orders.code [DecidableEq α] {ks : KeySpec κ α}
    (h : ks.Orders ord) : ks.code.Orders ord := by
  refine ⟨fun k e => ?_, fun e => decide_eq_true rfl⟩
  cases h with
  | chosen hcmp _ heq => simp only [KeySpec.code, cmpKeyNode, hcmp, heq]
  | words hcmp => simp only [KeySpec.code, cmpKeyNode, hcmp, compare_fastCmp]

end KeySpec

namespace OSet

/-- `VG_(OSetGen_Create)`. -/
def create (ks : KeySpec κ α) : OSet κ α :=
  { ks with nElems := 0, root := nil, stack := [] }

/-! ## Iteration -/

/-- `VG_(OSetGen_ResetIter)`. -/
def resetIter (t : OSet κ α) : Except Abort (OSet κ α) := do
  return { t with stack := ← iterReset t.root }

/-- `VG_(OSetGen_Next)`. -/
def next (t : OSet κ α) : Except Abort (Option α × OSet κ α) := do
  let (e, stack) ← iterNext t.stack
  return (e, { t with stack })

/-- A complete iteration: `VG_(OSetGen_ResetIter)`, then `VG_(OSetGen_Next)` until it returns NULL.
-/
def iterate (t : OSet κ α) : Except Abort (List α × OSet κ α) := do
  drain next (t.root.toList.length + 1) (← t.resetIter)

/-- `VG_(OSetGen_ResetIterAt)`. -/
def resetIterAt (t : OSet κ α) (k : κ) : Except Abort (OSet κ α) := do
  return { t with stack := ← seekSpine (fun e => compare (t.cmpKeyNode k e) 0) t.root [] }

/-- `VG_(OSetGen_ResetIterAt)`, then `VG_(OSetGen_Next)` until it returns NULL. -/
def iterateAt (t : OSet κ α) (k : κ) : Except Abort (List α × OSet κ α) := do
  drain next (t.root.toList.length + 1) (← t.resetIterAt k)

theorem advances_next : Advances (next : OSet κ α → _) stack id := by
  intro t h
  refine (advances_iterNext t.stack h).imp ?_ ?_
  · rintro ⟨st, hok, hadv⟩
    exact ⟨{ t with stack := st }, by simp [next, hok], hadv⟩
  · rintro ⟨herr, hneed⟩
    exact ⟨by simp [next, herr], hneed⟩

/-- A complete iteration delivers the elements in order if the left depth of the tree fits the
iterator stack, and fails an assertion if it does not. -/
theorem iterate_spec (t : OSet κ α) :
    (t.root.leftDepth ≤ stackMax → ∃ t', t.iterate = .ok (t.root.toList, t'))
      ∧ (stackMax < t.root.leftDepth → t.iterate = .error .assertion) := by
  simpa [iterate, resetIter] using
    drain_root advances_next t.root (fun st => { t with stack := st }) fun _ => rfl

/-- An iteration changes nothing but the iterator. -/
theorem iterate_keeps {t t' : OSet κ α} (h : t.iterate = .ok (l, t')) :
    t' = { t with stack := t'.stack } := by
  obtain ⟨t₁, hreset, hdrain⟩ := bind_eq_ok.mp h
  obtain ⟨st, -, hst⟩ := bind_eq_ok.mp hreset
  cases hst
  have hkeep : ∀ s o s', next s = .ok (o, s') → s = { t with stack := s.stack } →
      s' = { t with stack := s'.stack } := by
    intro s o s' hnext hs
    obtain ⟨⟨e, st'⟩, -, hq⟩ := bind_eq_ok.mp hnext
    cases hq
    rw [hs]
  exact drain_keeps hkeep hdrain rfl

/-! ## Insertion and removal -/

variable [DecidableEq α]

/-- The end of `avl_insert` at an element with an equal key. -/
def duplicate (_ : α) : Except Abort (α × Unit) :=
  .error (.assertion2 "OSet\x7bWord,Gen\x7d_Insert: duplicate element added")

/-- `VG_(OSetGen_Insert)`. -/
def insert (t : OSet κ α) (e : α) : Except Abort (OSet κ α) := do
  let root ← if t.root.isNil then .ok (leaf e) else (·.1) <$> t.code.avlInsert e duplicate () t.root
  return { t with root, nElems := (t.nElems + 1) % 2 ^ 32, stack := [] }

/-- `VG_(OSetGen_Lookup)`. -/
def lookup (t : OSet κ α) (k : κ) : Option α := t.code.avlFind k t.root

/-- `VG_(OSetGen_Remove)`: the element with the given key, or NULL. -/
def remove (t : OSet κ α) (k : κ) : Except Abort (Option α × OSet κ α) :=
  match t.code.avlFind k t.root with
  | some e => do
    let (root, _) ← t.code.avlRemove t.root e
    return (some e, { t with root, nElems := (t.nElems + (2 ^ 32 - 1)) % 2 ^ 32, stack := [] })
  | none => .ok (none, t)

/-- `VG_(OSetGen_Size)`. -/
def size (t : OSet κ α) : ℕ := t.nElems

/-- The calls that change a set. -/
inductive Op (κ α : Type) where
  | insert (e : α)
  | remove (k : κ)

/-- One call and what it returns. -/
def step (t : OSet κ α) : Op κ α → Except Abort (Option α × OSet κ α)
  | .insert e => do return (none, ← t.insert e)
  | .remove k => t.remove k

/-! ## Sets of elements -/

section

variable (ks : KeySpec κ α) (ord : κ → κ → Ordering)

open Classical in
/-- The element of a set with the given key. -/
noncomputable def holder (s : Finset α) (k : κ) : Option α :=
  if h : ∃ e ∈ s, ord k (ks.keyOf e) = .eq then some h.choose else none

/-- What a call does to the set of elements, and what it is to return. -/
noncomputable def act (s : Finset α) : Op κ α → Option α × Finset α
  | .insert e => (none, Insert.insert e s)
  | .remove k => (holder ks ord s k, s.filter fun e => ord k (ks.keyOf e) ≠ .eq)

/-- The caller inserts absent keys only. -/
def Absent (_ : OSet κ α) (s : Finset α) : Op κ α → Prop
  | .insert e => ∀ e' ∈ s, ord (ks.keyOf e) (ks.keyOf e') ≠ .eq
  | .remove _ => True

/-- The set holds the elements of `s` in a balanced search tree. -/
structure Represents (t : OSet κ α) (s : Finset α) : Prop where
  spec_eq : t.toKeySpec = ks
  balanced : t.root.Balanced
  ordered : Ordered ord ks.keyOf t.root.toList
  toFinset_eq : t.root.toList.toFinset = s
  nElems_eq : t.nElems = s.card % 2 ^ 32

end

variable {ks : KeySpec κ α} {ord : κ → κ → Ordering} {t : OSet κ α} {s : Finset α} {e : α}

theorem represents_create (ks : KeySpec κ α) (ord : κ → κ → Ordering) :
    Represents ks ord (create ks) ∅ :=
  ⟨rfl, trivial, List.Pairwise.nil, rfl, rfl⟩

theorem toFinset_middle (l r : List α) (e : α) :
    (l ++ e :: r).toFinset = Insert.insert e (l ++ r).toFinset := by
  ext x
  simp only [mem_toFinset, mem_append, mem_cons, Finset.mem_insert]
  tauto

/-- The first element is inserted like all others. -/
theorem insert_eq (t : OSet κ α) (e : α) :
    t.insert e = (t.code.avlInsert e duplicate () t.root >>= fun p =>
      .ok { t with root := p.1, nElems := (t.nElems + 1) % 2 ^ 32, stack := [] }) := by
  unfold insert
  cases t.root with
  | nil => rfl
  | node l x b r =>
    simp only [AvlTree.isNil, Bool.false_eq_true, if_false]
    cases t.code.avlInsert e duplicate () (node l x b r) with
    | error _ => rfl
    | ok _ => rfl

/-- **Inserting an absent key adds exactly the element.** -/
theorem insert_spec (ho : ks.Orders ord) (h : Represents ks ord t s)
    (habs : ∀ e' ∈ s, ord (ks.keyOf e) (ks.keyOf e') ≠ .eq) :
    ∃ t', t.insert e = .ok t' ∧ Represents ks ord t' (Insert.insert e s) := by
  have := ho.transCmp
  obtain ⟨rfl, hbal, hord, rfl, hn⟩ := h
  have hne : ∀ x ∈ t.root.toList, t.code.cmp (t.code.key e) x ≠ .eq := by
    intro x hx
    rw [ho.code.cmp_eq]
    exact habs x (mem_toFinset.mpr hx)
  obtain ⟨p, o, vs, hins, hok, hpl⟩ := t.code.avlInsert_spec () hbal (ho.code.cut hord _)
    fun x hx heq => absurd heq (hne x hx)
  obtain ⟨l, r, hlr, rfl, hl, hr, -⟩ := hpl.of_absent hne
  simp only [ho.code.cmp_eq] at hl hr
  rw [hlr] at hord habs hn
  have hnot : e ∉ (l ++ r).toFinset := fun he => habs e he Std.ReflCmp.compare_self
  refine ⟨{ t with root := p.1, nElems := (t.nElems + 1) % 2 ^ 32, stack := [] }, ?_,
    rfl, hok.balanced, ?_, ?_, ?_⟩
  · rw [insert_eq, hins, ok_bind]
  · exact hok.toList ▸ hord.insert hl hr
  · rw [hok.toList, toFinset_middle, hlr]
  · rw [hlr, Finset.card_insert_of_notMem hnot, hn]
    dsimp only
    omega

theorem holder_eq_some_iff [TransCmp ord] (h : Ordered ord ks.keyOf l) {k : κ} :
    holder ks ord l.toFinset k = some e ↔ e ∈ l ∧ ord k (ks.keyOf e) = .eq := by
  unfold holder
  split_ifs with hex
  · obtain ⟨hmem, heq⟩ := hex.choose_spec
    rw [Option.some_inj]
    constructor
    · rintro rfl
      exact ⟨mem_toFinset.mp hmem, heq⟩
    · rintro ⟨he, hke⟩
      exact h.eq_of_eq (mem_toFinset.mp hmem) he ((TransCmp.congr_left heq).symm.trans hke)
  · refine iff_of_false nofun ?_
    exact fun ⟨he, hke⟩ => hex ⟨e, mem_toFinset.mpr he, hke⟩

section

variable (ho : ks.Orders ord) (h : Represents ks ord t s)
include ho h

/-- **A lookup finds exactly the element with the key.** -/
theorem lookup_eq (k : κ) : t.lookup k = holder ks ord s k := by
  have := ho.transCmp
  obtain ⟨rfl, -, hord, rfl, -⟩ := h
  refine Option.ext fun e => ?_
  rw [holder_eq_some_iff hord, lookup, AvlCode.avlFind_eq_some_iff ho.code hord, ho.code.cmp_eq]
  rfl

theorem lookup_eq_some_iff {k : κ} : t.lookup k = some e ↔ e ∈ s ∧ ord k (ks.keyOf e) = .eq := by
  have := ho.transCmp
  rw [lookup_eq ho h, ← h.toFinset_eq, holder_eq_some_iff h.ordered, mem_toFinset]

/-- **Removing a key removes exactly its element.** -/
theorem remove_spec (k : κ) : ∃ t', t.remove k = .ok (holder ks ord s k, t')
      ∧ Represents ks ord t' (s.filter fun e => ord k (ks.keyOf e) ≠ .eq) := by
  have := ho.transCmp
  have hlook := lookup_eq ho h k
  obtain ⟨rfl, hbal, hord, rfl, hn⟩ := h
  unfold remove
  rw [lookup] at hlook
  rw [hlook]
  cases hk : holder t.toKeySpec ord t.root.toList.toFinset k with
  | none =>
    have hall : ∀ e ∈ t.root.toList.toFinset, ord k (t.keyOf e) ≠ .eq := by
      intro e he hke
      rw [(holder_eq_some_iff hord).mpr ⟨mem_toFinset.mp he, hke⟩] at hk
      cases hk
    refine ⟨t, rfl, ?_⟩
    rw [Finset.filter_true_of_mem hall]
    exact ⟨rfl, hbal, hord, rfl, hn⟩
  | some e =>
    obtain ⟨he, hke⟩ := (holder_eq_some_iff hord).mp hk
    obtain ⟨p, l, r, hrem, hsplit, hshrunk⟩ := AvlCode.avlRemove_spec ho.code hbal hord he
    rw [hsplit] at hord hn hk
    rw [hsplit]
    have hne := hord.ne_of_eq hke
    have hnot : e ∉ (l ++ r).toFinset := fun he => hne e (mem_toFinset.mp he) hke
    have herase : (l ++ e :: r).toFinset.filter (fun x => ord k (t.keyOf x) ≠ .eq)
        = (l ++ r).toFinset := by
      rw [toFinset_middle, Finset.filter_insert, if_neg (not_not.mpr hke)]
      exact Finset.filter_true_of_mem fun x hx => hne x (mem_toFinset.mp hx)
    refine ⟨{ t with root := p.1, nElems := (t.nElems + (2 ^ 32 - 1)) % 2 ^ 32, stack := [] }, ?_,
      rfl, hshrunk.balanced, ?_, ?_, ?_⟩
    · simp only [hrem, ok_bind, pure_eq_ok]
    · exact hshrunk.toList ▸ hord.sublist ((sublist_cons_self e r).append_left l)
    · rw [hshrunk.toList, herase]
    · rw [herase, hn, toFinset_middle, Finset.card_insert_of_notMem hnot]
      dsimp only
      omega

end

/-- **Every call refines what it does to the set of elements.** -/
theorem refines_step (ho : ks.Orders ord) :
    Refines step (act ks ord) (Absent ks ord) (Represents ks ord) := by
  intro t s op h hpre
  cases op with
  | insert e =>
    obtain ⟨t', hins, h'⟩ := insert_spec ho h hpre
    exact ⟨t', by simp [step, hins, act], h'⟩
  | remove k => exact remove_spec ho h k

/-! ## Whole runs -/

/-- **An `OSet` is an ordered set.**  Along every run of insertions of absent keys and of removals,
no assertion fails, removals return what they are to return, the tree is a balanced search tree over
the elements inserted and not removed, and lookups find exactly these; `nElems` counts them modulo
2^32. -/
theorem ordered_set (ho : ks.Orders ord) {ops : List (Op κ α)}
    (hops : Admits step (act ks ord) (Absent ks ord) (create ks) ∅ ops) :
    ∃ t, run step (create ks) ops = .ok ((absRun (act ks ord) ∅ ops).1, t)
      ∧ t.root.Balanced
      ∧ Ordered ord ks.keyOf t.root.toList
      ∧ t.root.toList.toFinset = (absRun (act ks ord) ∅ ops).2
      ∧ t.size = (absRun (act ks ord) ∅ ops).2.card % 2 ^ 32
      ∧ ∀ k e, t.lookup k = some e
        ↔ e ∈ (absRun (act ks ord) ∅ ops).2 ∧ ord k (ks.keyOf e) = .eq := by
  have := ho.transCmp
  obtain ⟨t, hrun, h⟩ := (refines_step ho).run (represents_create ks ord) hops
  refine ⟨t, hrun, h.balanced, h.ordered, h.toFinset_eq, h.nElems_eq, fun k e => ?_⟩
  rw [lookup_eq ho h, ← h.toFinset_eq, holder_eq_some_iff h.ordered, mem_toFinset]

/-- Sets of words. -/
def wordSpec : KeySpec UWord UWord := { keyOf := id, wordOf := id, cmp := none }

theorem orders_wordSpec : wordSpec.Orders compare := .words rfl

theorem ordered_set_words :
    ∃ t, run step (create wordSpec) [.insert 1, .insert 2, .remove 1]
        = .ok ((absRun (act wordSpec compare) ∅ [.insert 1, .insert 2, .remove 1]).1, t)
      ∧ t.size = 1 := by
  have hops : Admits step (act wordSpec compare) (Absent wordSpec compare) (create wordSpec) ∅
      [.insert 1, .insert 2, .remove 1] := by
    refine ⟨by simp [Absent], fun _ _ _ => ⟨?_, fun _ _ _ => ⟨trivial, fun _ _ _ => trivial⟩⟩⟩
    simp [Absent, act, wordSpec]
  obtain ⟨t, hrun, -, -, -, hsize, -⟩ := ordered_set orders_wordSpec hops
  refine ⟨t, hrun, hsize.trans ?_⟩
  simp [absRun, act, wordSpec, Finset.filter_insert, Finset.filter_singleton]

/-! ## Many insertions -/

variable (ks ord)

/-- Insertions of a list of elements. -/
def inserts (κ : Type) (l : List α) : List (Op κ α) := l.map .insert

theorem absRun_inserts (l : List α) (s : Finset α) :
    (absRun (act ks ord) s (inserts κ l)).2 = s ∪ l.toFinset := by
  induction l generalizing s with
  | nil => simp [inserts, absRun]
  | cons e l ih =>
    simp only [inserts, map_cons, absRun] at ih ⊢
    rw [ih]
    simp [act, Finset.insert_union, Finset.union_insert]

theorem admits_inserts [TransCmp ord] (t : OSet κ α)
    (hl : l.Pairwise fun e e' => ord (ks.keyOf e) (ks.keyOf e') ≠ .eq)
    (hs : ∀ e ∈ l, ∀ e' ∈ s, ord (ks.keyOf e) (ks.keyOf e') ≠ .eq) :
    Admits step (act ks ord) (Absent ks ord) t s (inserts κ l) := by
  induction l generalizing s t with
  | nil => trivial
  | cons e l ih =>
    obtain ⟨hel, hl⟩ := pairwise_cons.mp hl
    refine ⟨hs e mem_cons_self, fun _ t' _ => ih t' hl fun e' he' x hx => ?_⟩
    rcases Finset.mem_insert.mp hx with rfl | hx
    · exact fun h => hel e' he' (eq_symm h)
    · exact hs e' (mem_cons_of_mem _ he') x hx

/-- Inserting `n` distinct words counts to `n`, modulo 2^32. -/
theorem run_inserts_range (n : ℕ) :
    Admits step (act wordSpec compare) (Absent wordSpec compare) (create wordSpec) ∅
        (inserts UWord (List.range n))
      ∧ ∃ t rs, run step (create wordSpec) (inserts UWord (List.range n)) = .ok (rs, t)
        ∧ t.size = n % 2 ^ 32 ∧ t.root.toList.toFinset.card = n := by
  have hops := admits_inserts wordSpec compare (create wordSpec) (l := List.range n) (s := ∅)
    (nodup_range.imp fun h => by simpa [wordSpec] using h) (by simp)
  obtain ⟨t, hrun, h⟩ := (refines_step orders_wordSpec).run (represents_create _ _) hops
  have hcard : (absRun (act wordSpec compare) ∅ (inserts UWord (List.range n))).2.card = n := by
    rw [absRun_inserts, Finset.empty_union, toFinset_card_of_nodup nodup_range,
      length_range]
  exact ⟨hops, t, _, hrun, by rw [size, h.nElems_eq, hcard], by rw [h.toFinset_eq, hcard]⟩

/-- 2^32 insertions of distinct words leave a set that claims to be empty. -/
theorem nElems_wraps :
    ∃ ops, Admits step (act wordSpec compare) (Absent wordSpec compare) (create wordSpec) ∅ ops
      ∧ ∃ t rs, run step (create wordSpec) ops = .ok (rs, t)
        ∧ t.size = 0 ∧ t.root.toList.toFinset.card = 2 ^ 32 :=
  ⟨_, run_inserts_range (2 ^ 32)⟩

end OSet

end Valgrind
