import Mathlib.Data.Char
import Valgrind.CgMerge.Profile
import Valgrind.Foundations.FiniteMap

/-!
# CgMerge/Maps — the maps of `cg_merge.c` as partial functions

Keys that compare equal are equal here, so a map stands for the partial function `getFM`, whose
bindings in order are `entries`.  Adding and assigning update it at one key.  A loop over a map runs
its body over the entries if the left depth of the tree fits the iterator stack, and else is cut off
by an assertion after some of them (`forFM_spec`).
-/

namespace Valgrind.CgMerge

open AvlTree WordFM SortedList.Ordered Function FMNode
open List hiding nil
open FiniteMap (Lists)
open SortedList (Ordered)
open Std (TransCmp LawfulEqCmp)

variable {α κ ν σ : Type} {cmp : κ → κ → ℤ} {st : IterStack α} {t : AvlTree α}

/-! ## Orders -/

theorem keyOrd_strcmp (s t : Text) : keyOrd strcmp s t = List.compareLex compare s t := by
  induction s generalizing t with
  | nil => cases t <;> rfl
  | cons a s ih =>
    cases t with
    | nil => rfl
    | cons b t =>
      simp only [keyOrd, strcmp, List.compareLex_cons_cons] at ih ⊢
      rcases lt_trichotomy a b with h | rfl | h
      · rw [if_pos h, compare_lt_iff_lt.mpr h]
        rfl
      · simp [ih]
      · rw [if_neg (not_lt_of_gt h), if_pos h, compare_gt_iff_gt.mpr h]
        rfl

theorem keyOrd_cmpFileFn (a b : FileFn) :
    keyOrd cmpFileFn a b
      = (List.compareLex compare a.fiName b.fiName).then (List.compareLex compare a.fnName b.fnName)
      := by
  rw [← keyOrd_strcmp, ← keyOrd_strcmp]
  simp only [keyOrd, cmpFileFn]
  split_ifs with h
  · simp [h]
  · cases hc : compare (strcmp a.fiName b.fiName) 0 with
    | eq => exact absurd (compare_eq_iff_eq.mp hc) h
    | lt => rfl
    | gt => rfl

theorem keyOrd_cmpUnboxedUWord : keyOrd cmpUnboxedUWord = compare := keyOrd_cmpUnsignedWords

instance : TransCmp (keyOrd cmpFileFn) := by
  have h : keyOrd cmpFileFn
      = compareLex (compareOn FileFn.fiName) (compareOn FileFn.fnName) :=
    funext₂ keyOrd_cmpFileFn
  rw [h]
  infer_instance

instance : LawfulEqCmp (keyOrd cmpFileFn) where
  eq_of_compare {a b} h := by
    rw [keyOrd_cmpFileFn, Ordering.then_eq_eq] at h
    exact FileFn.ext (LawfulEqCmp.eq_of_compare h.1) (LawfulEqCmp.eq_of_compare h.2)

instance : TransCmp (keyOrd cmpUnboxedUWord) := by
  rw [keyOrd_cmpUnboxedUWord]
  infer_instance

instance : LawfulEqCmp (keyOrd cmpUnboxedUWord) := by
  rw [keyOrd_cmpUnboxedUWord]
  infer_instance

/-! ## Maps as partial functions -/

/-- The bindings of a map in order. -/
def entries (fm : WordFM Unit κ ν) : List (κ × ν) := fm.root.toList.map FMNode.binding

/-- The map is a balanced search tree that nobody iterates over. -/
structure Valid (cmp : κ → κ → ℤ) (fm : WordFM Unit κ ν) : Prop where
  cmp_eq : fm.cmp = cmp
  balanced : fm.root.Balanced
  ordered : Ordered (keyOrd cmp) FMNode.key fm.root.toList
  stack_eq : fm.stack = []

theorem valid_newFM (cmp : κ → κ → ℤ) : Valid cmp (WordFM.newFM cmp : WordFM Unit κ ν) :=
  ⟨rfl, trivial, List.Pairwise.nil, rfl⟩

@[simp] theorem getFM_newFM (cmp : κ → κ → ℤ) (k : κ) :
    getFM (WordFM.newFM cmp : WordFM Unit κ ν) k = none := rfl

section Lawful

variable [TransCmp (keyOrd cmp)] [LawfulEqCmp (keyOrd cmp)] {fm fm' : WordFM Unit κ ν}

omit [LawfulEqCmp (keyOrd cmp)] in
/-- An ordered list of bindings is known by the function it lists. -/
theorem eq_of_lists {f : κ → Option ν} {l l' : List (κ × ν)} (hord : Ordered (keyOrd cmp) Prod.fst l)
    (hord' : Ordered (keyOrd cmp) Prod.fst l') (hl : Lists f l) (hl' : Lists f l') : l = l' := by
  refine (hl.perm hl').eq_of_pairwise (fun a b _ _ hab hba => ?_) hord hord'
  exact absurd hba (Std.OrientedCmp.not_lt_of_lt hab)

namespace Valid

omit [TransCmp (keyOrd cmp)] [LawfulEqCmp (keyOrd cmp)] in
/-- The keys of a valid map increase. -/
theorem entries_ordered (h : Valid cmp fm) : Ordered (keyOrd cmp) Prod.fst (entries fm) := by
  rw [iff_keys, entries, map_map]
  exact iff_keys.mp h.ordered

/-- A lookup reads the entries. -/
theorem getFM_eq_some_iff (h : Valid cmp fm) {k : κ} {v : ν} :
    getFM fm k = some v ↔ (k, v) ∈ entries fm := by
  obtain ⟨rfl, -, hord, -⟩ := h
  have hfind : ∀ n, (fmCode fm.cmp).avlFind k fm.root = some n
      ↔ n ∈ fm.root.toList ∧ n.key = k := fun n => by
    rw [AvlCode.avlFind_eq_some_iff orders_fmCode hord, fmCode_cmp,
      LawfulEqCmp.compare_eq_iff_eq, eq_comm (a := k)]
  rw [getFM, lookupFM, Option.map_map, Option.map_eq_some_iff, entries, mem_map]
  refine exists_congr fun n => ?_
  rw [hfind, and_assoc]
  exact and_congr_right fun _ => Prod.mk.injEq .. ▸ Iff.rfl

theorem lists (h : Valid cmp fm) : Lists (getFM fm) (entries fm) :=
  ⟨h.entries_ordered.nodup_keys, fun _ _ => h.getFM_eq_some_iff.symm⟩

/-- Maps that are equal as functions have the same entries. -/
theorem entries_congr (h : Valid cmp fm) (h' : Valid cmp fm') (heq : getFM fm = getFM fm') :
    entries fm = entries fm' :=
  eq_of_lists h.entries_ordered h'.entries_ordered h.lists (heq ▸ h'.lists)

/-- A valid map represents the function that `getFM` reads. -/
theorem represents (h : Valid cmp fm) :
    fm.Represents cmp fun k => (getFM fm k).map (Prod.mk k) := by
  refine ⟨h.cmp_eq, h.balanced, h.ordered, fun k b => ?_, h.stack_eq⟩
  rw [Option.map_eq_some_iff]
  simp only [h.getFM_eq_some_iff, LawfulEqCmp.compare_eq_iff_eq]
  constructor
  · rintro ⟨v, hv, rfl⟩
    obtain ⟨n, hn, hkv⟩ := mem_map.mp hv
    exact ⟨n, hn, (Prod.mk.inj hkv).1.symm, hkv⟩
  · rintro ⟨n, hn, rfl, rfl⟩
    exact ⟨n.val, mem_map_of_mem hn, rfl⟩

/-- **Adding binds the key.** -/
theorem addFM [DecidableEq κ] (h : Valid cmp fm) (k : κ) (v : ν) :
    ∃ fm', addFM fm k v = .ok fm' ∧ Valid cmp fm'
      ∧ getFM fm' = Function.update (getFM fm) k (some v) := by
  obtain ⟨fm', hadd, hrep, -⟩ := addToFM_spec h.represents () k v
  refine ⟨fm', by simp [CgMerge.addFM, call, hadd],
    { hrep with }, funext fun k' => ?_⟩
  rw [getFM, lookupFM_eq hrep, Bindings.add, update_apply]
  simp only [LawfulEqCmp.compare_eq_iff_eq]
  split_ifs with hk
  · simp
  · simp

omit [TransCmp (keyOrd cmp)] in
/-- The entries after writing through a value pointer. -/
theorem entries_assign [DecidableEq κ] (h : Valid cmp fm) (k : κ) (v : ν) :
    entries (CgMerge.assign fm k v)
      = (entries fm).map fun b => if b.1 = k then (b.1, v) else b := by
  have hzero : ∀ n : FMNode Unit κ ν, fm.cmp n.key k = 0 ↔ n.key = k := fun n => by
    have heq : keyOrd cmp n.key k = .eq ↔ n.key = k := LawfulEqCmp.compare_eq_iff_eq
    rw [← heq, keyOrd, compare_eq_iff_eq, h.cmp_eq]
  simp only [entries, CgMerge.assign, toList_map, map_map]
  refine map_congr_left fun n _ => ?_
  simp only [comp_apply, hzero, binding]
  by_cases hn : n.key = k
  · simp [hn]
  · simp [hn]

/-- **Writing through the value pointer binds the key anew.** -/
theorem assign [DecidableEq κ] (h : Valid cmp fm) {k : κ} {w : ν} (hk : getFM fm k = some w)
    (v : ν) :
    Valid cmp (CgMerge.assign fm k v)
      ∧ getFM (CgMerge.assign fm k v) = Function.update (getFM fm) k (some v) := by
  have hkeys : (CgMerge.assign fm k v).root.toList.map key
      = fm.root.toList.map key := by
    simp only [CgMerge.assign, toList_map, map_map]
    refine map_congr_left fun n _ => ?_
    simp only [comp_apply]
    split_ifs <;> rfl
  have hv : Valid cmp (CgMerge.assign fm k v) := by
    refine ⟨h.cmp_eq, h.balanced.map _, ?_, h.stack_eq⟩
    rw [iff_keys, hkeys]
    exact iff_keys.mp h.ordered
  refine ⟨hv, funext fun k' => Option.ext fun v' => ?_⟩
  rw [hv.getFM_eq_some_iff, h.entries_assign, mem_map, update_apply]
  split_ifs with hkk
  · subst hkk
    constructor
    · rintro ⟨b, hb, heq⟩
      split_ifs at heq with hbk
      · rw [(Prod.mk.inj heq).2]
      · exact absurd (congrArg Prod.fst heq) hbk
    · rintro ⟨⟩
      exact ⟨(k', w), h.getFM_eq_some_iff.mp hk, by simp⟩
  · rw [h.getFM_eq_some_iff]
    constructor
    · rintro ⟨b, hb, heq⟩
      split_ifs at heq with hbk
      · exact absurd (((Prod.mk.inj heq).1).symm.trans hbk) hkk
      · exact heq ▸ hb
    · intro hb
      exact ⟨(k', v'), hb, if_neg hkk⟩

end Valid

end Lawful

/-! ## The iterator

A child is pushed to be visited, and the next round pops it: after `spine` rounds the loop is where
`pushSpine` takes that of `m_wordfm.c`. -/

theorem mergeLoop_spine (ht : t ≠ nil) (hst : st.length < stackMax) (k : ℕ) :
    mergeLoop (spine t + k) ((t, .one) :: st) = (pushSpine t st >>= mergeLoop k) := by
  induction t generalizing st with
  | nil => exact absurd rfl ht
  | node l x b r ihl _ =>
    have hpop : stackPop ((node l x b r, .one) :: st) = .ok (some ((node l x b r, .one), st)) :=
      if_pos hst
    have hpush : stackPush (node l x b r) .two st = .ok ((node l x b r, .two) :: st) := if_pos hst
    rw [spine, Nat.add_right_comm]
    simp only [mergeLoop, pushSpine, hpop, hpush, ok_bind]
    by_cases hl : l = nil
    · subst hl
      simp [isNil, spine]
    · simp only [isNil_iff, hl, if_false]
      by_cases hlen : ((node l x b r, Visit.two) :: st).length < stackMax
      · rw [stackPush, if_pos hlen, ok_bind, ihl hl hlen]
      · obtain ⟨ll, y, bl, lr, rfl⟩ : ∃ ll y bl lr, l = node ll y bl lr := by
          cases l with
          | nil => exact absurd rfl hl
          | node ll y bl lr => exact ⟨ll, y, bl, lr, rfl⟩
        simp only [stackPush, if_neg hlen, pushSpine, error_bind]

theorem mergeLoop_two {l r : AvlTree α} {x : α} {b : ℤ}
    (h : Ready ((node l x b r, .two) :: st)) (k k' : ℕ) :
    mergeLoop (k + 1) ((node l x b r, .two) :: st)
      = nextLoop (k' + 1) ((node l x b r, .two) :: st) := by
  simp only [mergeLoop, nextLoop, h.pop, ok_bind]

/-- The two loops agree once they have a spine to push. -/
theorem pushSpine_mergeLoop (ht : t ≠ nil) (h : Ready st) (k k' : ℕ) :
    (pushSpine t st >>= mergeLoop (k + 1)) = (pushSpine t st >>= nextLoop (k' + 1)) := by
  obtain ⟨l, x, b, r, st', hok, hready, -⟩ | ⟨herr, -⟩ := pushSpine_spec ht h
  · rw [hok, ok_bind, ok_bind, mergeLoop_two hready k k']
  · rw [herr, error_bind, error_bind]

/-- **The loop of `cg_merge.c` does what the one of `m_wordfm.c` does.** -/
theorem mergeLoop_rounds (h : Ready st) : mergeLoop (rounds st) st = iterNext st := by
  rw [iterNext]
  induction st with
  | nil => rfl
  | cons e st ih =>
    obtain ⟨_ | ⟨l, x, b, r⟩, i⟩ := e
    · exact absurd rfl (h.ne_nil _ mem_cons_self)
    cases i with
    | one =>
      rw [rounds, mergeLoop_spine (by simp) h.length_lt, pushSpine_mergeLoop (by simp) h.tail 0 _]
      simp only [nextLoop, h.pop, ok_bind]
      rfl
    | two => exact mergeLoop_two h 0 _
    | three =>
      by_cases hr : r = nil
      · subst hr
        simp only [rounds, isNil, if_true, mergeLoop, nextLoop, h.pop, ok_bind, pure_eq_ok]
        exact ih h.tail
      · have hpush : stackPush r .one st = .ok ((r, .one) :: st) := if_pos h.length_lt
        have hmerge : mergeLoop (spine r + 2) ((node l x b r, .three) :: st)
            = mergeLoop (spine r + 1) ((r, .one) :: st) := by
          rw [mergeLoop]
          simp only [h.pop, ok_bind, isNil_iff, hr, if_false, hpush]
        have hnext : nextLoop (st.length + 3) ((node l x b r, .three) :: st)
            = (pushSpine r st >>= nextLoop (st.length + 2)) := by
          rw [nextLoop]
          simp only [h.pop, ok_bind, isNil_iff, hr, if_false]
        simp only [rounds, isNil_iff, hr, if_false]
        rw [hmerge, mergeLoop_spine hr h.length_lt, pushSpine_mergeLoop hr h.tail 0 _]
        exact hnext.symm

theorem advances_nextIterFM :
    Advances (nextIterFM : WordFM Unit κ ν → _) WordFM.stack FMNode.binding := by
  intro fm h
  have heq : nextIterFM fm = fm.nextIterFM := by
    rw [nextIterFM, mergeLoop_rounds h]
    rfl
  rw [heq]
  exact fm.advances_nextIterFM h

/-! ## Loops over a map -/

section Loops

variable {body : σ → κ × ν → Except Exit σ} {fm : WordFM Unit κ ν}

theorem forLoop_spec (body : σ → κ × ν → Except Exit σ) (h : Ready fm.stack) {fuel : ℕ}
    (hf : (rest fm.stack).length < fuel) (s : σ) :
    (need fm.stack ≤ stackMax →
        forLoop body fuel fm s = ((rest fm.stack).map FMNode.binding).foldlM body s)
      ∧ (stackMax < need fm.stack → ∃ done, done <+: (rest fm.stack).map FMNode.binding
        ∧ forLoop body fuel fm s = (done.foldlM body s >>= fun _ => .error (.abort .assertion))) := by
  induction fuel generalizing fm s with
  | zero => exact absurd hf (Nat.not_lt_zero _)
  | succ fuel ih =>
    obtain ⟨fm', hok, hready, hrest, hiff⟩ | ⟨herr, hlt⟩ := advances_nextIterFM fm h
    · cases hr : rest fm.stack with
      | nil =>
        exact ⟨fun _ => by simp [forLoop, hok, hr, call],
          fun hlt => absurd (need_le_of_rest h hr) (not_le.mpr hlt)⟩
      | cons x xs =>
        rw [hr, tail_cons] at hrest
        have hnext := ih hready (by rw [hrest]; simpa [hr] using hf)
        rw [hrest] at hnext
        have hstep : forLoop body (fuel + 1) fm s = (body s x.binding >>= forLoop body fuel fm') := by
          simp only [forLoop, hok, hr, call, ok_bind, List.head?_cons, Option.map_some]
        rw [hstep]
        refine ⟨fun hneed => bind_congr fun s' => (hnext s').1 (hiff.mpr hneed), fun hneed => ?_⟩
        cases hb : body s x.binding with
        | error e => exact ⟨[x.binding], ⟨_, rfl⟩, by simp [hb]⟩
        | ok s' =>
          obtain ⟨done, hdone, hrun⟩ := (hnext s').2 (by omega)
          exact ⟨x.binding :: done, cons_prefix_cons.mpr ⟨rfl, hdone⟩, by simp [hb, hrun]⟩
    · exact ⟨fun hneed => absurd hlt (not_lt.mpr hneed),
        fun _ => ⟨[], nil_prefix, by simp [forLoop, herr, call]⟩⟩

/-- **A loop over a map that fits the stack runs over its entries**, and one over a map that does not
is cut off. -/
theorem forFM_spec (fm : WordFM Unit κ ν) (body : σ → κ × ν → Except Exit σ) (s : σ) :
    (fm.root.leftDepth ≤ stackMax → forFM fm body s = (entries fm).foldlM body s)
      ∧ (stackMax < fm.root.leftDepth → ∃ done, done <+: entries fm
        ∧ forFM fm body s = (done.foldlM body s >>= fun _ => .error (.abort .assertion))) := by
  obtain ⟨st, hst, hready, hrest, hneed⟩ := iterReset_ok fm.root
  have hready' : Ready { fm with stack := st }.stack := hready
  have hrun := forLoop_spec body hready' (by rw [hrest]; exact Nat.lt_succ_self _) s
  rw [hrest, hneed] at hrun
  rw [forFM, initIterFM, hst]
  exact hrun

theorem forFM_eq (h : fm.root.leftDepth ≤ stackMax) (s : σ) :
    forFM fm body s = (entries fm).foldlM body s := (forFM_spec fm body s).1 h

/-- A loop returns iff the map fits the stack and the body returns for every entry. -/
theorem forFM_eq_ok {s s' : σ} : forFM fm body s = .ok s'
      ↔ fm.root.leftDepth ≤ stackMax ∧ (entries fm).foldlM body s = .ok s' := by
  by_cases h : fm.root.leftDepth ≤ stackMax
  · rw [forFM_eq h, and_iff_right h]
  · obtain ⟨done, -, hrun⟩ := (forFM_spec fm body s).2 (not_le.mp h)
    simp [hrun, bind_eq_ok, h]

end Loops

end Valgrind.CgMerge
