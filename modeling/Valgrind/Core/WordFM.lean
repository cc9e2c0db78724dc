import Valgrind.Core.AvlInvariant
import Valgrind.Core.TreeIterator
import Valgrind.Foundations.Refinement

/-!
# Core/WordFM — `coregrind/m_wordfm.c`: finite maps

A `WordFM` keeps bindings of words to words in an AVL tree.  `cg_merge.c` has a copy of the code
whose words are pointers, so keys and values are arbitrary here; a node carries an identity, its
address where addresses matter.

A map stands for the partial function from keys to the stored key and value (`Represents`).  Adding
and deleting refine the obvious operations on such functions, and lookup, size, bounds and copies
read them off: `wordFM_refines`.
-/

namespace Valgrind

open AvlTree Std.OrientedCmp SortedList.Ordered AvlCode
open List hiding nil
open Refinement (run absRun Admits Refines)
open SortedList (Ordered Cut)
open Std (TransCmp)

variable {ι κ ν : Type}

/-- `struct _AvlNode`, without its children and balance. -/
structure FMNode (ι κ ν : Type) where
  /-- What tells this node from others: its address. -/
  addr : ι
  key : κ
  val : ν
deriving DecidableEq

/-- The key and value of a node. -/
def FMNode.binding (n : FMNode ι κ ν) : κ × ν := (n.key, n.val)

open FMNode (binding)

/-- `struct _WordFM`. -/
structure WordFM (ι κ ν : Type) where
  root : AvlTree (FMNode ι κ ν)
  /-- `kCmp`, or `cmp_unsigned_Words` if that is NULL. -/
  cmp : κ → κ → ℤ
  stack : IterStack (FMNode ι κ ν)

/-! ## The code -/

/-- `cmp_unsigned_Words`. -/
def cmpUnsignedWords (w1 w2 : UWord) : ℤ :=
  if w1 < w2 then -1
  else if w1 > w2 then 1
  else 0

/-- The AVL code of `m_wordfm.c`, which compares the key of the root with the one searched for. -/
def fmCode [DecidableEq ι] (cmp : κ → κ → ℤ) : AvlCode κ (FMNode ι κ ν) where
  key := FMNode.key
  cmp k n := compare 0 (cmp n.key k)
  same x y := x.addr = y.addr
  checked := true

namespace WordFM

/-- `VG_(newFM)`. -/
def newFM (cmp : κ → κ → ℤ) : WordFM ι κ ν := { root := nil, cmp, stack := [] }

/-- `VG_(newFM)` for words. -/
def newWordFM (kCmp : Option (UWord → UWord → ℤ)) : WordFM Addr UWord UWord :=
  newFM (kCmp.getD cmpUnsignedWords)

/-- The end of `avl_insert_wrk` at a duplicate: the old value, and the node with the new one. -/
def replaceVal (v : ν) (n : FMNode ι κ ν) : Except Abort (FMNode ι κ ν × Option ν) :=
  .ok ({ n with val := v }, some n.val)

section

variable [DecidableEq ι]

/-- `VG_(addToFM)`, where `alloc_nofail` returns `addr`. -/
def addToFM (fm : WordFM ι κ ν) (addr : ι) (k : κ) (v : ν) : Except Abort (Bool × WordFM ι κ ν) := do
  let (root, _, oldV) ← (fmCode fm.cmp).avlInsert ⟨addr, k, v⟩ (replaceVal v) none fm.root
  return (oldV.isSome, { fm with root })

/-- `VG_(delFromFM)`: the old key and value, if found. -/
def delFromFM (fm : WordFM ι κ ν) (key : κ) : Except Abort (Option (κ × ν) × WordFM ι κ ν) :=
  match (fmCode fm.cmp).avlFind key fm.root with
  | some n => do
    let (root, _) ← (fmCode fm.cmp).avlRemove fm.root n
    return (some n.binding, { fm with root })
  | none => .ok (none, fm)

/-- `VG_(lookupFM)`: the key and value found. -/
def lookupFM (fm : WordFM ι κ ν) (key : κ) : Option (κ × ν) :=
  ((fmCode fm.cmp).avlFind key fm.root).map binding

end

/-- `size_avl_nonNull`, and 0 for NULL. -/
def sizeAvl : AvlTree (FMNode ι κ ν) → ℕ
  | nil => 0
  | node l _ _ r => (1 + sizeAvl l + sizeAvl r) % 2 ^ 64

/-- `VG_(sizeFM)`. -/
def sizeFM (fm : WordFM ι κ ν) : ℕ := sizeAvl fm.root

/-- `avl_find_bounds`: the bounds so far are the lower and the upper one. -/
def avlFindBounds (cmp : κ → κ → ℤ) (key : κ) :
    κ × ν → κ × ν → AvlTree (FMNode ι κ ν) → Option ((κ × ν) × (κ × ν))
  | lower, upper, nil => some (lower, upper)
  | lower, upper, node l n _ r =>
    if cmp n.key key < 0 then avlFindBounds cmp key n.binding upper r
    else if cmp n.key key > 0 then avlFindBounds cmp key lower n.binding l
    else none

/-- `VG_(findBoundsFM)`, with the default bindings `min` and `max`; `none` is False. -/
def findBoundsFM (fm : WordFM ι κ ν) (min max : κ × ν) (key : κ) : Option ((κ × ν) × (κ × ν)) :=
  avlFindBounds fm.cmp key min max fm.root

/-- `avl_dopy`: the `i`th allocation from now on returns `alloc i`.  Also returns the number of the
next allocation. -/
def avlDopy (dopyK : Option (κ → κ)) (dopyV : Option (ν → ν)) (alloc : ℕ → ι) :
    ℕ → AvlTree (FMNode ι κ ν) → AvlTree (FMNode ι κ ν) × ℕ
  | i, nil => (nil, i)
  | i, node l n b r =>
    let nyu := ⟨alloc i, dopyK.getD id n.key, dopyV.getD id n.val⟩
    let (l, i) := avlDopy dopyK dopyV alloc (i + 1) l
    let (r, i) := avlDopy dopyK dopyV alloc i r
    (node l nyu b r, i)

/-- `VG_(dopyFM)`. -/
def dopyFM (fm : WordFM ι κ ν) (dopyK : Option (κ → κ)) (dopyV : Option (ν → ν)) (alloc : ℕ → ι) :
    Except Abort (WordFM ι κ ν) :=
  if fm.stack.length = 0 then .ok { fm with root := (avlDopy dopyK dopyV alloc 0 fm.root).1 }
  else .error .assertion

/-- `VG_(initIterFM)`. -/
def initIterFM (fm : WordFM ι κ ν) : Except Abort (WordFM ι κ ν) := do
  return { fm with stack := ← iterReset fm.root }

/-- `VG_(nextIterFM)`. -/
def nextIterFM (fm : WordFM ι κ ν) : Except Abort (Option (κ × ν) × WordFM ι κ ν) := do
  let (n, stack) ← iterNext fm.stack
  return (n.map binding, { fm with stack })

/-- A complete iteration: `VG_(initIterFM)`, then `VG_(nextIterFM)` until it returns False. -/
def iterate (fm : WordFM ι κ ν) : Except Abort (List (κ × ν) × WordFM ι κ ν) := do
  drain nextIterFM (fm.root.toList.length + 1) (← fm.initIterFM)

/-- `VG_(initIterAtFM)`, whose loop has no way to the code behind it. -/
def initIterAtFM (fm : WordFM ι κ ν) (startAt : κ) : Except Abort (WordFM ι κ ν) := do
  return { fm with stack := ← seekSpine (fun n => compare 0 (fm.cmp n.key startAt)) fm.root [] }

/-- `VG_(initIterAtFM)`, then `VG_(nextIterFM)` until it returns False. -/
def iterateAt (fm : WordFM ι κ ν) (startAt : κ) : Except Abort (List (κ × ν) × WordFM ι κ ν) := do
  drain nextIterFM (fm.root.toList.length + 1) (← fm.initIterAtFM startAt)

end WordFM

/-! ## Partial functions -/

/-- The order of keys a comparison makes. -/
def keyOrd (cmp : κ → κ → ℤ) (a b : κ) : Ordering := compare (cmp a b) 0

/-- The first key is smaller. -/
def Below (cmp : κ → κ → ℤ) (a b : κ) : Prop := keyOrd cmp a b = .lt

/-- The first key is larger. -/
def Above (cmp : κ → κ → ℤ) (a b : κ) : Prop := keyOrd cmp b a = .lt

/-- What a map tells of each key: the stored key and the value. -/
abbrev Bindings (κ ν : Type) := κ → Option (κ × ν)

namespace Bindings

variable (ord : κ → κ → Ordering) (m : Bindings κ ν)

/-- A key is bound, or bound anew; the stored key stays. -/
def add (k : κ) (v : ν) : Bindings κ ν := fun k' =>
  if ord k' k = .eq then some (((m k).map Prod.fst).getD k, v) else m k'

/-- A key is unbound. -/
def del (k : κ) : Bindings κ ν := fun k' => if ord k' k = .eq then none else m k'

end Bindings

/-- Among the given bindings, `b` is one whose key comes last before `key`; if there is none before
`key`, it is the default. -/
def Nearest (before : κ → κ → Prop) (key : κ) (bs : κ × ν → Prop) (default b : κ × ν) : Prop :=
  (bs b ∧ before b.1 key ∧ ∀ b', bs b' → before b'.1 key → ¬ before b.1 b'.1)
    ∨ b = default ∧ ∀ b', bs b' → ¬ before b'.1 key

namespace WordFM

section Spec

variable {cmp : κ → κ → ℤ}

/-- The map holds the bindings `m` in a balanced search tree, and nobody iterates over it. -/
structure Represents (cmp : κ → κ → ℤ) (fm : WordFM ι κ ν) (m : Bindings κ ν) : Prop where
  cmp_eq : fm.cmp = cmp
  balanced : fm.root.Balanced
  ordered : Ordered (keyOrd cmp) FMNode.key fm.root.toList
  bound_iff : ∀ k b, m k = some b
    ↔ ∃ n ∈ fm.root.toList, keyOrd cmp k n.key = .eq ∧ n.binding = b
  stack_eq : fm.stack = []

/-- The identities of a map's nodes. -/
def addrs (fm : WordFM ι κ ν) : List ι := fm.root.toList.map FMNode.addr

variable {fm : WordFM ι κ ν} {m : Bindings κ ν}

theorem represents_newFM (cmp : κ → κ → ℤ) :
    Represents cmp (newFM cmp : WordFM ι κ ν) (fun _ => none) :=
  ⟨rfl, trivial, List.Pairwise.nil, by simp [newFM], rfl⟩

/-- A key is bound iff the tree has a node for it. -/
theorem Represents.eq_none_iff (h : Represents cmp fm m) (k : κ) :
    m k = none ↔ ∀ n ∈ fm.root.toList, keyOrd cmp k n.key ≠ .eq := by
  rw [Option.eq_none_iff_forall_ne_some]
  refine ⟨fun hk n hn heq => hk n.binding ((h.bound_iff k _).mpr ⟨n, hn, heq, rfl⟩), ?_⟩
  intro hall b hb
  obtain ⟨n, hn, heq, -⟩ := (h.bound_iff k b).mp hb
  exact hall n hn heq

variable [TransCmp (keyOrd cmp)]

section

variable [DecidableEq ι]

/-- The AVL code searches by the order the comparison makes. -/
theorem orders_fmCode : (fmCode cmp : AvlCode κ (FMNode ι κ ν)).Orders (keyOrd cmp) := by
  refine ⟨fun k n => ?_, fun n => decide_eq_true rfl⟩
  have hswap : keyOrd cmp k n.key = (keyOrd cmp n.key k).swap := eq_swap
  have hcmp : compare 0 (cmp n.key k) = (compare (cmp n.key k) 0).swap := eq_swap
  exact hcmp.trans hswap.symm

theorem fmCode_cmp (k : κ) (n : FMNode ι κ ν) : (fmCode cmp).cmp k n = keyOrd cmp k n.key :=
  orders_fmCode.cmp_eq k n

/-- **A lookup reads the bindings.** -/
theorem lookupFM_eq (h : Represents cmp fm m) (k : κ) : fm.lookupFM k = m k := by
  obtain ⟨rfl, -, hord, hm, -⟩ := h
  refine Option.ext fun b => ?_
  rw [hm, lookupFM, Option.map_eq_some_iff]
  refine exists_congr fun n => ?_
  rw [avlFind_eq_some_iff orders_fmCode hord, fmCode_cmp, and_assoc]

/-- **Adding binds the key, or binds it anew, and tells which.** -/
theorem addToFM_spec (h : Represents cmp fm m) (addr : ι) (k : κ) (v : ν) :
    ∃ fm', fm.addToFM addr k v = .ok ((m k).isSome, fm')
      ∧ Represents cmp fm' (m.add (keyOrd cmp) k v)
      ∧ fm'.addrs.Subperm (addr :: fm.addrs) := by
  have hnone := h.eq_none_iff k
  obtain ⟨rfl, hbal, hord, hm, hst⟩ := h
  have hdup : ∀ x ∈ fm.root.toList, (fmCode fm.cmp).cmp k x = .eq → ∃ q, replaceVal v x = .ok q :=
    fun x _ _ => ⟨_, rfl⟩
  obtain ⟨p, o, vs, hins, hok, hpl⟩ := (fmCode fm.cmp).avlInsert_spec (n := ⟨addr, k, v⟩) none hbal
    (orders_fmCode.cut hord k) hdup
  have hrun : fm.addToFM addr k v = .ok (o.isSome, { fm with root := p.1 }) := by
    simp [addToFM, hins]
  refine ⟨{ fm with root := p.1 }, ?_⟩
  simp only [addrs, hok.toList]
  obtain ⟨l, r, hlr, rfl, hl, hr, rfl⟩ | ⟨l, x, x', r, hlr, rfl, hx, hd⟩ := hpl.eq_or_eq
  · have hl' : ∀ n ∈ l, keyOrd fm.cmp k n.key = .gt := fun n hn => (fmCode_cmp k n).symm.trans (hl n hn)
    have hr' : ∀ n ∈ r, keyOrd fm.cmp k n.key = .lt := fun n hn => (fmCode_cmp k n).symm.trans (hr n hn)
    rw [hlr] at hord hm hnone
    have hmk : m k = none := hnone.mpr fun n hn => by
      rcases mem_append.mp hn with hn | hn
      · simp [hl' n hn]
      · simp [hr' n hn]
    have hord' : Ordered (keyOrd fm.cmp) FMNode.key (l ++ ⟨addr, k, v⟩ :: r) := hord.insert hl' hr'
    refine ⟨by rw [hrun, hmk]; rfl, ⟨rfl, hok.balanced, hok.toList ▸ hord', fun k' b => ?_, hst⟩, ?_⟩
    · rw [hok.toList, hord'.exists_eq_iff k', Bindings.add, hmk]
      split_ifs with hk'
      · simp [binding]
      · exact hm k' b
    · rw [hlr, map_append, map_append, map_cons]
      exact perm_middle.subperm
  · cases hd
    have hx' : keyOrd fm.cmp k x.key = .eq := (fmCode_cmp k x).symm.trans hx
    rw [hlr] at hord hm
    have hmk : m k = some x.binding := (hm k _).mpr ⟨x, by simp, hx', rfl⟩
    have hord' : Ordered (keyOrd fm.cmp) FMNode.key (l ++ { x with val := v } :: r) :=
      hord.replace rfl
    refine ⟨by rw [hrun, hmk]; rfl, ⟨rfl, hok.balanced, hok.toList ▸ hord', fun k' b => ?_, hst⟩, ?_⟩
    · have hkx : keyOrd fm.cmp k' k = keyOrd fm.cmp k' x.key := TransCmp.congr_right hx'
      rw [hok.toList, hord'.exists_eq_iff k', Bindings.add, hmk, hkx]
      split_ifs with hk'
      · simp [binding]
      · rw [hm, hord.exists_eq_iff, if_neg hk']
    · rw [hlr, map_append, map_append, map_cons, map_cons]
      exact (sublist_cons_self _ _).subperm

/-- **Deleting removes exactly the key and returns its binding.** -/
theorem delFromFM_spec (h : Represents cmp fm m) (k : κ) :
    ∃ fm', fm.delFromFM k = .ok (m k, fm') ∧ Represents cmp fm' (m.del (keyOrd cmp) k)
      ∧ fm'.addrs.Subperm fm.addrs := by
  have hlook := lookupFM_eq h k
  have hnone := h.eq_none_iff
  obtain ⟨rfl, hbal, hord, hm, hst⟩ := h
  rw [lookupFM] at hlook
  unfold delFromFM
  cases hf : (fmCode fm.cmp).avlFind k fm.root with
  | none =>
    rw [hf, Option.map_none] at hlook
    refine ⟨fm, by rw [← hlook], ⟨rfl, hbal, hord, fun k' b => ?_, hst⟩, .refl _⟩
    rw [← hm, Bindings.del]
    split_ifs with hk'
    · have hk : m k' = none := (hnone k').mpr fun n hn heq => by
        refine (hnone k).mp hlook.symm n hn ?_
        rw [← TransCmp.congr_left hk', heq]
      simp [hk]
    · rfl
  | some n =>
    obtain ⟨hn, hk⟩ := (avlFind_eq_some_iff orders_fmCode hord).mp hf
    rw [fmCode_cmp] at hk
    obtain ⟨p, l, r, hrem, hsplit, hshrunk⟩ := avlRemove_spec orders_fmCode hbal hord hn
    rw [hf, Option.map_some] at hlook
    rw [hsplit] at hord hm
    have hord' := hord.sublist ((sublist_cons_self n r).append_left l)
    refine ⟨{ fm with root := p.1 }, by simp [hrem, hlook],
      ⟨rfl, hshrunk.balanced, hshrunk.toList ▸ hord', fun k' b => ?_, hst⟩, ?_⟩
    · have hkn : keyOrd fm.cmp k' k = keyOrd fm.cmp k' n.key := TransCmp.congr_right hk
      rw [hshrunk.toList, Bindings.del, hkn]
      split_ifs with hk'
      · have hne := hord.ne_of_eq hk'
        simp only [false_iff, not_exists, not_and]
        exact fun x hx hkx => absurd hkx (hne x hx)
      · rw [hm, hord.exists_eq_iff, if_neg hk']
    · simp only [addrs, hshrunk.toList, hsplit, map_append, map_cons]
      exact ((sublist_cons_self _ _).append_left _).subperm

end

/-- **The search for bounds ends at the key, or where the key cuts the tree.** -/
theorem avlFindBounds_spec {t : AvlTree (FMNode ι κ ν)}
    (hord : Ordered (keyOrd cmp) FMNode.key t.toList) (key : κ) (lower upper : κ × ν) :
    (avlFindBounds cmp key lower upper t = none ∧ ∃ n ∈ t.toList, keyOrd cmp key n.key = .eq)
      ∨ ∃ u v, t.toList = u ++ v ∧ (∀ n ∈ u, keyOrd cmp key n.key = .gt)
        ∧ (∀ n ∈ v, keyOrd cmp key n.key = .lt) ∧ avlFindBounds cmp key lower upper t
          = some ((u.map binding).getLastD lower, (v.map binding).headD upper) := by
  induction t generalizing lower upper with
  | nil => exact .inr ⟨[], [], rfl, by simp, by simp, rfl⟩
  | node l x b r ihl ihr =>
    obtain ⟨hol, hor, -⟩ := pairwise_append.mp hord
    have hcut := hord.cut key
    rw [toList_node] at hcut ⊢
    simp only [avlFindBounds]
    split_ifs with hlt hgt
    · have hxk := hcut.gt_of_gt (gt_of_lt (compare_lt_iff_lt.mpr hlt))
      obtain ⟨hnone, n, hn, heq⟩ | ⟨u, v, huv, hu, hv, hsome⟩ := ihr hor.of_cons x.binding upper
      · exact .inl ⟨hnone, n, by simp [hn], heq⟩
      · refine .inr ⟨(l.toList ++ [x]) ++ u, v, by simp [huv],
          forall_mem_append.mpr ⟨hxk, hu⟩, hv, ?_⟩
        rw [hsome]
        simp [getLastD_eq_getLast?, getLast?_cons]
    · have hkx := hcut.lt_of_lt (lt_of_gt (compare_gt_iff_gt.mpr hgt))
      obtain ⟨hnone, n, hn, heq⟩ | ⟨u, v, huv, hu, hv, hsome⟩ := ihl hol lower x.binding
      · exact .inl ⟨hnone, n, by simp [hn], heq⟩
      · refine .inr ⟨u, v ++ x :: r.toList, by simp [huv], hu,
          forall_mem_append.mpr ⟨hv, hkx⟩, ?_⟩
        rw [hsome]
        simp [headD_eq_head?_getD]
    · have hkx : keyOrd cmp key x.key = .eq :=
        eq_symm (compare_eq_iff_eq.mpr (by omega))
      exact .inl ⟨rfl, x, by simp, hkx⟩

/-- Of bindings before the key, none of which is before an earlier one, the first is nearest. -/
theorem nearest_headD {R : κ → κ → Prop} (hR : ∀ k, ¬ R k k) {key : κ} {u v : List (FMNode ι κ ν)}
    (hu : ∀ n ∈ u, R n.key key) (hv : ∀ n ∈ v, ¬ R n.key key)
    (hord : u.Pairwise fun n n' => ¬ R n.key n'.key) (default : κ × ν) :
    Nearest R key (· ∈ (u ++ v).map binding) default ((u.map binding).headD default) := by
  rcases u with _ | ⟨x, u⟩
  · exact .inr ⟨rfl, forall_mem_map.mpr hv⟩
  · refine .inl ⟨by simp, hu x mem_cons_self, forall_mem_map.mpr fun n hn hk => ?_⟩
    rcases mem_append.mp hn with hn | hn
    · rcases mem_cons.mp hn with rfl | hn
      · exact hR _
      · exact rel_of_pairwise_cons hord hn
    · exact absurd hk (hv n hn)

section Cut

variable {u v : List (FMNode ι κ ν)} {key : κ} (hu : ∀ n ∈ u, keyOrd cmp key n.key = .gt)
  (hv : ∀ n ∈ v, keyOrd cmp key n.key = .lt)
  (hord : Ordered (keyOrd cmp) FMNode.key (u ++ v)) (default : κ × ν)
include hu hv hord

/-- The last binding in front of a cut is the nearest one below the key… -/
theorem nearest_below : Nearest (Below cmp) key (· ∈ (u ++ v).map binding) default
    ((u.map binding).getLastD default) := by
  have h := nearest_headD (R := Below cmp) (fun _ h => not_lt_of_lt h h)
    (fun n hn => lt_of_gt (hu n (mem_reverse.mp hn))) (fun n hn h => not_lt_of_lt h (hv n hn))
    (pairwise_reverse.mpr ((pairwise_append.mp hord).1.imp not_lt_of_lt)) default
  simpa [map_reverse] using h

/-- …and the first one behind it is the nearest above. -/
theorem nearest_above : Nearest (Above cmp) key (· ∈ (u ++ v).map binding) default
    ((v.map binding).headD default) := by
  have h := nearest_headD (R := Above cmp) (fun _ h => not_lt_of_lt h h) hv
    (fun n hn h => not_lt_of_lt h (lt_of_gt (hu n hn)))
    ((pairwise_append.mp hord).2.1.imp not_lt_of_lt) default
  simpa [or_comm] using h

end Cut

/-- The bindings are those of the nodes. -/
theorem Represents.mem_bindings_iff (h : Represents cmp fm m) (b : κ × ν) :
    b ∈ fm.root.toList.map binding ↔ ∃ k, m k = some b := by
  rw [mem_map]
  constructor
  · rintro ⟨n, hn, rfl⟩
    exact ⟨n.key, (h.bound_iff _ _).mpr ⟨n, hn, Std.ReflCmp.compare_self, rfl⟩⟩
  · rintro ⟨k, hk⟩
    obtain ⟨n, hn, -, rfl⟩ := (h.bound_iff k b).mp hk
    exact ⟨n, hn, rfl⟩

/-- **Bounds are found for absent keys only, and are the nearest ones.** -/
theorem findBoundsFM_spec (h : Represents cmp fm m) (min max : κ × ν) (key : κ) :
    (fm.findBoundsFM min max key = none ↔ m key ≠ none)
      ∧ ∀ lo hi, fm.findBoundsFM min max key = some (lo, hi) →
        Nearest (Below cmp) key (fun b => ∃ k, m k = some b) min lo
          ∧ Nearest (Above cmp) key (fun b => ∃ k, m k = some b) max hi := by
  have hbs : (· ∈ fm.root.toList.map binding) = fun b => ∃ k, m k = some b :=
    funext fun b => propext (h.mem_bindings_iff b)
  rw [findBoundsFM, h.cmp_eq, ne_eq, h.eq_none_iff, ← hbs]
  obtain ⟨hnone, n, hn, heq⟩ | ⟨u, v, huv, hu, hv, hsome⟩ :=
    avlFindBounds_spec h.ordered key min max
  · rw [hnone]
    exact ⟨iff_of_true rfl fun hall => hall n hn heq, nofun⟩
  · have hord := h.ordered
    rw [huv] at hord ⊢
    rw [hsome]
    refine ⟨iff_of_false nofun (not_not.mpr (forall_mem_append.mpr
      ⟨fun n hn => by simp [hu n hn], fun n hn => by simp [hv n hn]⟩)), ?_⟩
    rintro lo' hi' hinj
    cases hinj
    exact ⟨nearest_below hu hv hord min, nearest_above hu hv hord max⟩

omit [TransCmp (keyOrd cmp)] in
theorem sizeAvl_eq (t : AvlTree (FMNode ι κ ν)) : sizeAvl t = t.toList.length % 2 ^ 64 := by
  induction t with
  | nil => rfl
  | node l x b r ihl ihr =>
    rw [sizeAvl, ihl, ihr, toList_node, length_append, length_cons]
    omega

/-- A map has as many bindings as nodes. -/
theorem Represents.ncard_eq (h : Represents cmp fm m) :
    {b | ∃ k, m k = some b}.ncard = fm.root.toList.length := by
  classical
  have hnodup : (fm.root.toList.map binding).Nodup := by
    refine List.Nodup.of_map Prod.fst ?_
    rw [map_map]
    exact h.ordered.nodup_keys
  have hset : {b | ∃ k, m k = some b} = ((fm.root.toList.map binding).toFinset : Set _) := by
    ext b
    simp only [Set.mem_ofPred_eq, coe_toFinset, h.mem_bindings_iff]
  rw [hset, Set.ncard_coe_finset, toFinset_card_of_nodup hnodup, length_map]

/-! ## Copies -/

omit [TransCmp (keyOrd cmp)] in
/-- **A copy has the shape of the original and its bindings, on new nodes.** -/
theorem avlDopy_spec (dopyK : Option (κ → κ)) (dopyV : Option (ν → ν)) (alloc : ℕ → ι) (i : ℕ)
    (t : AvlTree (FMNode ι κ ν)) :
    let p := avlDopy dopyK dopyV alloc i t
    p.2 = i + t.toList.length ∧ p.1.height = t.height ∧ (t.Balanced → p.1.Balanced)
      ∧ p.1.toList.map binding
        = t.toList.map (fun n => (dopyK.getD id n.key, dopyV.getD id n.val))
      ∧ (p.1.toList.map FMNode.addr).Perm ((List.range' i t.toList.length).map alloc) := by
  induction t generalizing i with
  | nil => exact ⟨rfl, rfl, id, rfl, .refl _⟩
  | node l x b r ihl ihr =>
    obtain ⟨hi, hh, hb, hbs, has⟩ := ihl (i + 1)
    obtain ⟨hi', hh', hb', hbs', has'⟩ := ihr (avlDopy dopyK dopyV alloc (i + 1) l).2
    simp only [avlDopy]
    refine ⟨?_, ?_, fun ⟨hl, hr, hbal⟩ => ⟨hb hl, hb' hr, ?_⟩, ?_, ?_⟩
    · rw [hi', hi, toList_node, length_append, length_cons]
      omega
    · rw [height_node, height_node, hh, hh']
    · rw [hh, hh']
      exact hbal
    · simp [hbs, hbs', binding]
    · rw [hi] at has' ⊢
      rw [toList_node, map_append, map_cons, toList_node,
        length_append, length_cons, ← add_assoc, List.range'_succ,
        ← List.range'_append_1, map_cons, map_append]
      exact perm_middle.trans ((has.append has').cons _)

omit [TransCmp (keyOrd cmp)] in
/-- What is bound depends on the keys and values of the nodes only. -/
theorem exists_binding_iff (l : List (FMNode ι κ ν)) (k : κ) (b : κ × ν) :
    (∃ n ∈ l, keyOrd cmp k n.key = .eq ∧ n.binding = b)
      ↔ b ∈ l.map binding ∧ keyOrd cmp k b.1 = .eq := by
  rw [mem_map]
  constructor
  · rintro ⟨n, hn, hk, rfl⟩
    exact ⟨⟨n, hn, rfl⟩, hk⟩
  · rintro ⟨⟨n, hn, rfl⟩, hk⟩
    exact ⟨n, hn, hk, rfl⟩

omit [TransCmp (keyOrd cmp)] in
/-- `VG_(dopyFM)` without copy functions yields an equal map, on the nodes allocated for it. -/
theorem dopyFM_spec (h : Represents cmp fm m) (alloc : ℕ → ι) :
    ∃ nyu, fm.dopyFM none none alloc = .ok nyu ∧ Represents cmp nyu m
      ∧ nyu.addrs.Perm ((List.range' 0 fm.root.toList.length).map alloc) := by
  obtain ⟨-, -, hbal, hbs, haddrs⟩ := avlDopy_spec none none alloc 0 fm.root
  have hkeys := congrArg (List.map Prod.fst) hbs
  simp only [map_map] at hkeys
  refine ⟨{ fm with root := (avlDopy none none alloc 0 fm.root).1 }, ?_,
    ⟨h.cmp_eq, hbal h.balanced, ?_, fun k b => ?_, h.stack_eq⟩, haddrs⟩
  · rw [dopyFM, h.stack_eq]
    rfl
  · exact iff_keys.mpr (hkeys ▸ iff_keys.mp h.ordered)
  · rw [h.bound_iff, exists_binding_iff, exists_binding_iff, hbs]
    rfl

end Spec

/-! ## Maps of words -/

/-- The calls that change a map; an allocation says where the new node is. -/
inductive Op where
  | add (addr : Addr) (k v : UWord)
  | del (k : UWord)

/-- What the calls return. -/
inductive Result where
  | added (bound : Bool)
  | deleted (old : Option (UWord × UWord))

/-- One call and what it returns. -/
def step (fm : WordFM Addr UWord UWord) : Op → Except Abort (Result × WordFM Addr UWord UWord)
  | .add addr k v => do
    let (bound, fm) ← fm.addToFM addr k v
    return (.added bound, fm)
  | .del k => do
    let (old, fm) ← fm.delFromFM k
    return (.deleted old, fm)

/-- What a call does to the bindings, and what it is to return. -/
def act (ord : UWord → UWord → Ordering) (m : Bindings UWord UWord) :
    Op → Result × Bindings UWord UWord
  | .add _ k v => (.added (m k).isSome, m.add ord k v)
  | .del k => (.deleted (m k), m.del ord k)

/-- The address `alloc_nofail` returns during a call. -/
def Op.addr? : Op → Option Addr
  | .add addr _ _ => some addr
  | .del _ => none

/-- The allocator returns an address that is not NULL and not in use. -/
def Fresh (fm : WordFM Addr UWord UWord) (_ : Bindings UWord UWord) (op : Op) : Prop :=
  ∀ a ∈ op.addr?, a ∉ fm.addrs ∧ 0 < a ∧ a < 2 ^ 64

/-- The map holds the bindings `m`, on distinct nodes. -/
structure Holds (cmp : UWord → UWord → ℤ) (fm : WordFM Addr UWord UWord)
    (m : Bindings UWord UWord) : Prop extends Represents cmp fm m where
  nodup : fm.addrs.Nodup
  bounds : ∀ a ∈ fm.addrs, 0 < a ∧ a < 2 ^ 64

section Words

variable {cmp : UWord → UWord → ℤ} [TransCmp (keyOrd cmp)] {fm : WordFM Addr UWord UWord}
  {m : Bindings UWord UWord}

theorem holds_newFM (cmp : UWord → UWord → ℤ) : Holds cmp (newFM cmp) fun _ => none :=
  ⟨represents_newFM cmp, nodup_nil, by simp [addrs, newFM]⟩

theorem nodup_of_subperm {l l' : List Addr} (h : l.Subperm l') (hl : l'.Nodup) : l.Nodup := by
  obtain ⟨l'', hperm, hsub⟩ := h
  exact hperm.nodup_iff.mp (hl.sublist hsub)

/-- A call does what it is to do, and takes no node that neither it nor the map had. -/
theorem step_spec (h : Holds cmp fm m) {op : Op} (hpre : Fresh fm m op) :
    ∃ fm', step fm op = .ok ((act (keyOrd cmp) m op).1, fm')
      ∧ Holds cmp fm' (act (keyOrd cmp) m op).2
      ∧ ∀ as, fm.addrs.Disjoint as → (∀ a ∈ op.addr?, a ∉ as) → fm'.addrs.Disjoint as := by
  cases op with
  | add addr k v =>
    obtain ⟨fm', hadd, hrep, hsub⟩ := addToFM_spec h.toRepresents addr k v
    obtain ⟨hnot, hbound⟩ := hpre addr rfl
    have hnodup : (addr :: fm.addrs).Nodup := nodup_cons.mpr ⟨hnot, h.nodup⟩
    refine ⟨fm', by simp [step, hadd, act], ⟨hrep, nodup_of_subperm hsub hnodup, fun a ha => ?_⟩,
      fun as hdisj has => disjoint_of_subset_left hsub.subset
        (disjoint_cons_left.mpr ⟨has _ rfl, hdisj⟩)⟩
    rcases mem_cons.mp (hsub.subset ha) with rfl | ha
    · exact hbound
    · exact h.bounds a ha
  | del k =>
    obtain ⟨fm', hdel, hrep, hsub⟩ := delFromFM_spec h.toRepresents k
    exact ⟨fm', by simp [step, hdel, act], ⟨hrep, nodup_of_subperm hsub h.nodup,
      fun a ha => h.bounds a (hsub.subset ha)⟩, fun _ hdisj _ =>
      disjoint_of_subset_left hsub.subset hdisj⟩

/-- **Every call refines what it does to the bindings.** -/
theorem refines_step : Refines step (act (keyOrd cmp)) Fresh (Holds cmp) := by
  intro fm m op h hpre
  obtain ⟨fm', hstep, hholds, -⟩ := step_spec h hpre
  exact ⟨fm', hstep, hholds⟩

/-- **The size is the number of bindings**: there are fewer addresses than a word can count. -/
theorem sizeFM_eq (h : Holds cmp fm m) : fm.sizeFM = {b | ∃ k, m k = some b}.ncard := by
  have hlt : fm.root.toList.length < 2 ^ 64 := by
    have hsub : fm.addrs.toFinset ⊆ Finset.Ico 1 (2 ^ 64) := by
      intro a ha
      obtain ⟨hpos, hlt⟩ := h.bounds a (mem_toFinset.mp ha)
      exact Finset.mem_Ico.mpr ⟨hpos, hlt⟩
    have hcard := Finset.card_le_card hsub
    rw [toFinset_card_of_nodup h.nodup, Nat.card_Ico, addrs, length_map] at hcard
    omega
  rw [h.ncard_eq, sizeFM, sizeAvl_eq, Nat.mod_eq_of_lt hlt]

end Words

/-! ## Two maps side by side -/

/-- Two maps, and what they are to hold. -/
abbrev Pair := WordFM Addr UWord UWord × WordFM Addr UWord UWord

/-- A call on the first map, or with `true` on the second. -/
def stepPair (p : Pair) : Bool × Op → Except Abort (Result × Pair)
  | (false, op) => do
    let (r, fm) ← step p.1 op
    return (r, fm, p.2)
  | (true, op) => do
    let (r, fm) ← step p.2 op
    return (r, p.1, fm)

/-- What such a call is to do: to one map what it does there, to the other nothing. -/
def actPair (ord : UWord → UWord → Ordering) (m : Bindings UWord UWord × Bindings UWord UWord) :
    Bool × Op → Result × Bindings UWord UWord × Bindings UWord UWord
  | (false, op) => ((act ord m.1 op).1, (act ord m.1 op).2, m.2)
  | (true, op) => ((act ord m.2 op).1, m.1, (act ord m.2 op).2)

/-- The allocator returns an address in use by neither map. -/
def FreshPair (p : Pair) (m : Bindings UWord UWord × Bindings UWord UWord) (op : Bool × Op) : Prop :=
  Fresh p.1 m.1 op.2 ∧ Fresh p.2 m.2 op.2

/-- Both maps hold their bindings, and share no node. -/
structure HoldsPair (cmp : UWord → UWord → ℤ) (p : Pair)
    (m : Bindings UWord UWord × Bindings UWord UWord) : Prop where
  fst : Holds cmp p.1 m.1
  snd : Holds cmp p.2 m.2
  disjoint : p.1.addrs.Disjoint p.2.addrs

section Pair

variable {cmp : UWord → UWord → ℤ} [TransCmp (keyOrd cmp)]

/-- **Maps that share no node do not affect each other.** -/
theorem refines_stepPair : Refines stepPair (actPair (keyOrd cmp)) FreshPair (HoldsPair cmp) := by
  rintro ⟨fm₁, fm₂⟩ ⟨m₁, m₂⟩ ⟨second, op⟩ ⟨h₁, h₂, hdisj⟩ ⟨hpre₁, hpre₂⟩
  cases second with
  | false =>
    obtain ⟨fm', hstep, hholds, hkeep⟩ := step_spec h₁ hpre₁
    exact ⟨(fm', fm₂), by simp [stepPair, hstep, actPair], hholds, h₂,
      hkeep _ hdisj fun a ha => (hpre₂ a ha).1⟩
  | true =>
    obtain ⟨fm', hstep, hholds, hkeep⟩ := step_spec h₂ hpre₂
    exact ⟨(fm₁, fm'), by simp [stepPair, hstep, actPair], h₁, hholds,
      (hkeep _ hdisj.symm fun a ha => (hpre₁ a ha).1).symm⟩

/-- The first `n` allocations return different addresses that are not NULL and not in use. -/
def FreshAllocs (fm : WordFM Addr UWord UWord) (alloc : ℕ → Addr) (n : ℕ) : Prop :=
  ((List.range' 0 n).map alloc).Nodup
    ∧ ∀ i < n, alloc i ∉ fm.addrs ∧ 0 < alloc i ∧ alloc i < 2 ^ 64

omit [TransCmp (keyOrd cmp)] in
/-- **A copy is equal to the original and shares no node with it.** -/
theorem dopyFM_holds {fm : WordFM Addr UWord UWord} {m : Bindings UWord UWord} (h : Holds cmp fm m)
    {alloc : ℕ → Addr} (halloc : FreshAllocs fm alloc fm.root.toList.length) :
    ∃ nyu, fm.dopyFM none none alloc = .ok nyu ∧ HoldsPair cmp (fm, nyu) (m, m) := by
  obtain ⟨nyu, hdopy, hrep, hperm⟩ := dopyFM_spec h.toRepresents alloc
  obtain ⟨hnodup, hfresh⟩ := halloc
  have hnew : ∀ a ∈ nyu.addrs, a ∉ fm.addrs ∧ 0 < a ∧ a < 2 ^ 64 := by
    intro a ha
    obtain ⟨i, hi, rfl⟩ := mem_map.mp (hperm.mem_iff.mp ha)
    have hlt := (mem_range'_1.mp hi).2
    exact hfresh i (by omega)
  exact ⟨nyu, hdopy, h, ⟨hrep, hperm.nodup_iff.mpr hnodup, fun a ha => (hnew a ha).2⟩,
    fun a ha ha' => (hnew a ha').1 ha⟩

end Pair

/-! ## Whole runs -/

theorem keyOrd_cmpUnsignedWords : keyOrd cmpUnsignedWords = compare := by
  funext w1 w2
  unfold keyOrd cmpUnsignedWords
  rcases lt_trichotomy w1 w2 with h | rfl | h
  · rw [if_pos h, compare_lt_iff_lt.mpr h]
    rfl
  · simp
  · rw [if_neg (not_lt_of_gt h), if_pos h, compare_gt_iff_gt.mpr h]
    rfl

/-- `kCmp` is a total order of words, or NULL. -/
def TotalOrder (kCmp : Option (UWord → UWord → ℤ)) : Prop :=
  ∀ cmp ∈ kCmp, TransCmp (keyOrd cmp)

theorem totalOrder_none : TotalOrder none := nofun

theorem TotalOrder.transCmp {kCmp : Option (UWord → UWord → ℤ)} (h : TotalOrder kCmp) :
    TransCmp (keyOrd (kCmp.getD cmpUnsignedWords)) := by
  cases kCmp with
  | none =>
    rw [Option.getD_none, keyOrd_cmpUnsignedWords]
    infer_instance
  | some cmp => exact h cmp rfl

/-- All that can be observed of a map agrees with the bindings `m`. -/
structure Agrees (cmp : UWord → UWord → ℤ) (fm : WordFM Addr UWord UWord)
    (m : Bindings UWord UWord) : Prop where
  balanced : fm.root.Balanced
  ordered : Ordered (keyOrd cmp) FMNode.key fm.root.toList
  lookup : ∀ k, fm.lookupFM k = m k
  size : fm.sizeFM = {b | ∃ k, m k = some b}.ncard
  bounds_false : ∀ min max key, fm.findBoundsFM min max key = none ↔ m key ≠ none
  bounds_true : ∀ min max key lo hi, fm.findBoundsFM min max key = some (lo, hi) →
    Nearest (Below cmp) key (fun b => ∃ k, m k = some b) min lo
      ∧ Nearest (Above cmp) key (fun b => ∃ k, m k = some b) max hi

theorem Holds.agrees {cmp : UWord → UWord → ℤ} [TransCmp (keyOrd cmp)]
    {fm : WordFM Addr UWord UWord} {m : Bindings UWord UWord} (h : Holds cmp fm m) :
    Agrees cmp fm m :=
  ⟨h.balanced, h.ordered, lookupFM_eq h.toRepresents, sizeFM_eq h,
    fun min max key => (findBoundsFM_spec h.toRepresents min max key).1,
    fun min max key => (findBoundsFM_spec h.toRepresents min max key).2⟩

/-- **A `WordFM` is a finite map.**  Along every run of additions and deletions the calls return
what the partial function they build says, and so do lookup, size and bounds afterwards.  A copy
then holds the same bindings, and however the calls on the two interleave, each behaves as if it
were alone. -/
theorem wordFM_refines {kCmp : Option (UWord → UWord → ℤ)} (hcmp : TotalOrder kCmp) {ops : List Op}
    (hops : Admits step (act (keyOrd (kCmp.getD cmpUnsignedWords))) Fresh (newWordFM kCmp)
      (fun _ => none) ops) :
    let cmp := kCmp.getD cmpUnsignedWords
    let m := absRun (act (keyOrd cmp)) (fun _ => none) ops
    ∃ fm, run step (newWordFM kCmp) ops = .ok (m.1, fm) ∧ Agrees cmp fm m.2
      ∧ ∀ alloc, FreshAllocs fm alloc fm.root.toList.length →
        ∃ nyu, fm.dopyFM none none alloc = .ok nyu ∧ Agrees cmp nyu m.2
          ∧ ∀ ops', Admits stepPair (actPair (keyOrd cmp)) FreshPair (fm, nyu) (m.2, m.2) ops' →
            let m' := absRun (actPair (keyOrd cmp)) (m.2, m.2) ops'
            ∃ p, run stepPair (fm, nyu) ops' = .ok (m'.1, p)
              ∧ Agrees cmp p.1 m'.2.1 ∧ Agrees cmp p.2 m'.2.2 ∧ p.1.addrs.Disjoint p.2.addrs := by
  intro cmp m
  have := hcmp.transCmp
  obtain ⟨fm, hrun, h⟩ := refines_step.run (holds_newFM cmp) hops
  refine ⟨fm, hrun, h.agrees, fun alloc halloc => ?_⟩
  obtain ⟨nyu, hdopy, hpair⟩ := dopyFM_holds h halloc
  refine ⟨nyu, hdopy, hpair.snd.agrees, fun ops' hops' => ?_⟩
  obtain ⟨p, hrun', h'⟩ := refines_stepPair.run hpair hops'
  exact ⟨p, hrun', h'.fst.agrees, h'.snd.agrees, h'.disjoint⟩

theorem wordFM_refines_words : ∃ fm, run step (newWordFM none) [.add 16 1 10, .del 1]
      = .ok ([.added false, .deleted (some (1, 10))], fm) := by
  have hops : Admits step (act (keyOrd cmpUnsignedWords)) Fresh (newWordFM none) (fun _ => none)
      [.add 16 1 10, .del 1] := by
    refine ⟨?_, fun _ _ _ => ⟨nofun, fun _ _ _ => trivial⟩⟩
    rintro a ⟨⟩
    simp [addrs, newWordFM, newFM]
  obtain ⟨fm, hrun, -⟩ := wordFM_refines totalOrder_none hops
  exact ⟨fm, hrun⟩

/-! ## Iteration -/

theorem advances_nextIterFM : Advances (nextIterFM : WordFM ι κ ν → _) stack binding := by
  intro fm h
  refine (advances_iterNext fm.stack h).imp ?_ ?_
  · rintro ⟨st, hok, hadv⟩
    exact ⟨{ fm with stack := st }, by simp [nextIterFM, hok], hadv⟩
  · rintro ⟨herr, hneed⟩
    exact ⟨by simp [nextIterFM, herr], hneed⟩

/-- A complete iteration delivers the bindings in order if the left depth of the tree fits the
iterator stack, and fails an assertion if it does not. -/
theorem iterate_spec (fm : WordFM ι κ ν) :
    (fm.root.leftDepth ≤ stackMax → ∃ fm', fm.iterate = .ok (fm.root.toList.map binding, fm'))
      ∧ (stackMax < fm.root.leftDepth → fm.iterate = .error .assertion) := by
  simpa [iterate, initIterFM] using
    drain_root advances_nextIterFM fm.root (fun st => { fm with stack := st }) fun _ => rfl

end WordFM

end Valgrind
