import Valgrind.Foundations.Recency
import Valgrind.Cachegrind.SetInvariant

/-!
# Cachegrind/LruStack — `cachesim_setref_is_miss_lru` is the recency stack

    ways of a set  =  the first `assoc` entries of the recency stack, then zeros

The invariant `c.row n = lruRow c.ways past` is the whole argument: a reference moves its tag to the
front of the stack and of the row alike (`lruWays_lruRow`), so a hit is membership in the first
`assoc` entries, which `Recency.mem_take_stack_iff` reads as a reuse distance below `assoc`.
-/

open Recency List Nat Prod

namespace Valgrind.Cachegrind

variable {t : UWord} {assoc n : ℕ} {past : List UWord} {c : CacheT2}

/-! ## Rows that list tags, newest first -/

/-- The ways of a set that lists `l`: as many of its tags as there is room for, then zeros. -/
def rowOf (assoc : ℕ) (l : List UWord) : List UWord :=
  l.take assoc ++ List.replicate (assoc - l.length) 0

theorem length_rowOf (assoc : ℕ) (l : List UWord) : (rowOf assoc l).length = assoc := by
  rw [rowOf, length_append, length_take, length_replicate]
  omega

/-- A nonzero tag is stored iff there was room for it. -/
theorem mem_rowOf {l : List UWord} (ht : t ≠ 0) : t ∈ rowOf assoc l ↔ t ∈ l.take assoc := by
  rw [rowOf, mem_append]
  exact or_iff_left fun h => ht (eq_of_mem_replicate h)

/-- A tag put in front pushes the last way out. -/
theorem rowOf_cons (hpos : 0 < assoc) (t : UWord) (l : List UWord) :
    rowOf assoc (t :: l) = t :: (rowOf assoc l).dropLast := by
  obtain ⟨w, rfl⟩ : ∃ w, assoc = w + 1 := ⟨assoc - 1, by omega⟩
  have hzeros : w - min (w + 1) l.length = w - l.length := by omega
  rw [dropLast_eq_take, length_rowOf, rowOf, rowOf, take_succ_cons, cons_append,
    length_cons, Nat.add_sub_add_right, Nat.add_sub_cancel, take_append, take_take,
    length_take, take_replicate, hzeros, min_eq_left (le_succ w),
    min_eq_left (by omega)]

/-- A call whose effect on the ways is known. -/
theorem onRow_eq_ok {f : WaysFn} (hassoc : 1 ≤ c.assoc) (hn : (n : ℤ) < c.sets)
    {miss : Bool} {set : List UWord} {r r' : RandomStream}
    (hf : f c.ways (c.row n) t r = (miss, set, r')) (hlen : set.length = c.ways) :
    onRow f c n t r = .ok (miss, c.writeRow n set, r') ∧ (c.writeRow n set).row n = set :=
  ⟨by rw [onRow_of_lt ⟨hn, hassoc⟩, hf], c.row_writeRow_self (by omega) hn hlen⟩

/-! ## The recency stack -/

/-- The ways an LRU set holds after the references in `past`: the most recent tags, then zeros. -/
def lruRow (assoc : ℕ) (past : List UWord) : List UWord :=
  (stack past).take assoc ++ List.replicate (assoc - (stack past).length) 0

theorem lruRow_eq (assoc : ℕ) (past : List UWord) : lruRow assoc past = rowOf assoc (stack past) :=
  rfl

/-- A hit: the front of the stack is re-used, the rest closes up. -/
theorem lruRow_concat_of_mem (h : t ∈ (stack past).take assoc) :
    lruRow assoc (past ++ [t]) = t :: (lruRow assoc past).erase t := by
  have hpos : 0 < assoc := by
    rcases Nat.eq_zero_or_pos assoc with h0 | h0
    · simp [h0] at h
    · exact h0
  obtain ⟨w, rfl⟩ : ∃ w, assoc = w + 1 := ⟨assoc - 1, by omega⟩
  have hmem : t ∈ stack past := mem_of_mem_take h
  have hlen : (t :: (stack past).erase t).length = (stack past).length := by
    have := length_pos_of_mem hmem
    rw [length_cons, length_erase_of_mem hmem]
    omega
  rw [lruRow, stack_concat, hlen, take_succ_cons, lruRow, erase_append_left _ h,
    ← take_erase_of_mem _ _ h, Nat.add_sub_cancel, cons_append]

/-- A miss: the tag comes in at the front, the last way goes. -/
theorem lruRow_concat_of_notMem (hpos : 0 < assoc) (h : t ∉ (stack past).take assoc) :
    lruRow assoc (past ++ [t]) = t :: (lruRow assoc past).dropLast := by
  rw [lruRow_eq, lruRow_eq, stack_concat, ← rowOf_cons hpos]
  by_cases hmem : t ∈ stack past
  · -- the old entry lies beyond the room, so nobody sees it go
    have hfar : assoc < (stack past).length := by
      by_contra hle
      exact h (by rwa [take_of_length_le (not_lt.mp hle)])
    obtain ⟨w, rfl⟩ : ∃ w, assoc = w + 1 := ⟨assoc - 1, by omega⟩
    have hprefix : ((stack past).erase t).take w = (stack past).take w :=
      take_erase_of_notMem w _ fun hm => h ((take_subset_take_left _ (le_succ w)) hm)
    have hlen := length_erase_of_mem hmem
    rw [rowOf, rowOf, take_succ_cons, take_succ_cons, hprefix, length_cons,
      length_cons, hlen, Nat.sub_eq_zero_of_le (by omega), Nat.sub_eq_zero_of_le (by omega)]
  · rw [erase_of_not_mem hmem]

/-- **One reference moves the row as it moves the stack.** -/
theorem lruWays_lruRow (hpos : 0 < assoc) (past : List UWord) (ht : t ≠ 0) (r : RandomStream) :
    lruWays assoc (lruRow assoc past) t r
      = (decide (t ∉ past ∨ assoc ≤ reuseDistance past t), lruRow assoc (past ++ [t]), r) := by
  have hlen : (lruRow assoc past).length = assoc := length_rowOf assoc _
  have hroom : t ∈ lruRow assoc past ↔ t ∈ (stack past).take assoc := mem_rowOf ht
  have hmiss : t ∉ lruRow assoc past ↔ t ∉ past ∨ assoc ≤ reuseDistance past t := by
    rw [hroom, mem_take_stack_iff, not_and_or, not_lt]
  rw [lruWays_eq hlen hpos]
  by_cases hmem : t ∈ lruRow assoc past
  · rw [if_pos hmem, lruRow_concat_of_mem (hroom.mp hmem),
      decide_eq_false (hmiss.not.mp (not_not.mpr hmem))]
  · rw [if_neg hmem, lruRow_concat_of_notMem hpos (hroom.not.mp hmem),
      decide_eq_true (hmiss.mp hmem)]

/-- The row of set `n` is the top of the recency stack of `past`. -/
structure LruState (c : CacheT2) (n : ℕ) (past : List UWord) : Prop where
  assoc_pos : 1 ≤ c.assoc
  lt_sets : (n : ℤ) < c.sets
  row_eq : c.row n = lruRow c.ways past

/-- The all-zero set is the stack of the empty history. -/
theorem lruState_init {config : CacheT} (hinit : cachesimInitcache config = .ok c)
    (hassoc : 1 ≤ config.assoc) (hn : (n : ℤ) < c.sets) : LruState c n [] := by
  have hspec := initSpec_of_ok hinit
  have h1 : 1 ≤ c.assoc := by rw [hspec.assoc_eq]; exact hassoc
  refine ⟨h1, hn, ?_⟩
  rw [hspec.row_eq (by omega) hn, lruRow]
  simp

/-- One call of `cachesim_setref_is_miss_lru`. -/
theorem LruState.step (h : LruState c n past) (ht : t ≠ 0) (r : RandomStream) :
    ∃ c', cachesimSetrefIsMissLru c n t r
        = .ok (decide (t ∉ past ∨ c.ways ≤ reuseDistance past t), c', r)
      ∧ c'.ways = c.ways ∧ LruState c' n (past ++ [t]) := by
  have hpos := (c.row_of_lt ⟨h.lt_sets, h.assoc_pos⟩).2
  obtain ⟨hok, hrow⟩ := onRow_eq_ok (f := lruWays) h.assoc_pos h.lt_sets
    (by rw [h.row_eq]; exact lruWays_lruRow hpos past ht r) (length_rowOf _ _)
  exact ⟨_, hok, rfl, h.assoc_pos, h.lt_sets, hrow⟩

/-- **The stack-distance law.**  From the all-zero set, a reference misses iff its tag is new or at
least `assoc` distinct other tags were referenced since it last was; at the end the set holds the
`min assoc (number of distinct tags)` most recent tags, latest first, followed by zeros. -/
theorem lru_stack_distance {config : CacheT} {c : CacheT2}
    (hinit : cachesimInitcache config = .ok c) (hassoc : 1 ≤ config.assoc) {n : ℕ}
    (hn : (n : ℤ) < c.sets) (ts : List UWord) (hts : ∀ t ∈ ts, t ≠ 0) (r : RandomStream) :
    ∃ misses c', setRun n (ts.map fun t => (cachesimSetrefIsMissLru, t)) c r = .ok (misses, c', r)
      ∧ misses.length = ts.length
      ∧ (∀ (k : ℕ) (t : UWord), ts[k]? = some t →
          (misses[k]? = some true
            ↔ t ∉ ts.take k ∨ config.assoc ≤ reuseDistance (ts.take k) t))
      ∧ c'.row n = (stack ts).take config.assoc.toNat
          ++ List.replicate (config.assoc.toNat - (stack ts).length) 0 := by
  have hways : c.ways = config.assoc.toNat := by rw [CacheT2.ways, (initSpec_of_ok hinit).assoc_eq]
  obtain ⟨misses, c', hrun, hlen, ⟨h', hw⟩, hmiss⟩ := setRun_of_step
    (fun d past => LruState d n (past.map fst) ∧ d.ways = c.ways)
    (fun past t => decide (t ∉ past.map fst ∨ c.ways ≤ reuseDistance (past.map fst) t))
    (fun d past t r h ht => by
      obtain ⟨d', hok, hw, h'⟩ := h.1.step ht r
      rw [h.2] at hok hw
      exact ⟨d', hok, by simpa using h', hw⟩)
    ts hts [] ⟨lruState_init hinit hassoc hn, rfl⟩ r
  have htags : (ts.zip misses).map fst = ts := map_fst_zip hlen.ge
  refine ⟨misses, c', hrun, hlen, fun k t hk => ?_, ?_⟩
  · rw [hmiss k t hk, nil_append, map_take, htags, hways, Option.some.injEq,
      decide_eq_true_iff]
    refine or_congr_right ?_
    omega
  · rw [h'.row_eq, hw, hways, nil_append, htags, lruRow]

/-- The law at a two-way set: `5 7 9 5` misses on every reference, since two other tags come between
the two references to `5`. -/
theorem lru_stack_distance_small : ∃ c misses c', cachesimInitcache smallConfig = .ok c
    ∧ setRun 0 ([5, 7, 9, 5].map fun t => (cachesimSetrefIsMissLru, t)) c lcgStream
      = .ok (misses, c', lcgStream)
    ∧ misses[3]? = some true ∧ c'.row 0 = [5, 9] := by
  obtain ⟨c, hc, hsets⟩ := exists_smallCache
  obtain ⟨misses, c', hrun, -, hmiss, hrow⟩ := lru_stack_distance hc (by decide) (n := 0)
    (by rw [hsets]; decide) [5, 7, 9, 5] (by decide) lcgStream
  exact ⟨c, misses, c', hc, hrun, (hmiss 3 5 rfl).mpr (Or.inr (by decide)), hrow⟩

end Valgrind.Cachegrind
