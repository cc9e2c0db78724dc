import Valgrind.Cachegrind.LruStack

/-!
# Cachegrind/FifoQueue — `cachesim_setref_is_miss_fifo` is the queue of insertions

    ways of a set  =  the last `assoc` tags inserted, newest first, then zeros

Only a miss inserts, so the row follows the references that missed and not the recency of the
others: `since (insertions past) t` is what was inserted after `t`, one tag a miss.
-/

open Recency List

namespace Valgrind.Cachegrind

/-- The tags inserted by references with these results, oldest first. -/
def insertions (past : List (UWord × Bool)) : List UWord := (past.filter Prod.snd).map Prod.fst

/-- Whether a FIFO set of `assoc` ways misses on `t`. -/
def fifoMisses (assoc : ℕ) (past : List (UWord × Bool)) (t : UWord) : Bool :=
  decide (t ∉ insertions past ∨ assoc ≤ (since (insertions past) t).length)

/-- **One reference moves the row as it moves the queue.** -/
theorem fifoWays_rowOf {assoc : ℕ} (hpos : 0 < assoc) (past : List (UWord × Bool)) {t : UWord}
    (ht : t ≠ 0) (r : RandomStream) :
    fifoWays assoc (rowOf assoc (insertions past).reverse) t r
      = (fifoMisses assoc past t,
          rowOf assoc (insertions (past ++ [(t, fifoMisses assoc past t)])).reverse, r) := by
  have hmiss : t ∉ rowOf assoc (insertions past).reverse
      ↔ t ∉ insertions past ∨ assoc ≤ (since (insertions past) t).length := by
    rw [mem_rowOf ht, mem_take_iff_takeWhile, mem_reverse, not_and_or, not_lt, since]
  rw [fifoWays_eq (length_rowOf assoc _) hpos, fifoMisses]
  by_cases hmem : t ∈ rowOf assoc (insertions past).reverse
  · rw [if_pos hmem, decide_eq_false (hmiss.not.mp (not_not.mpr hmem))]
    simp [insertions]
  · rw [if_neg hmem, decide_eq_true (hmiss.mp hmem), ← rowOf_cons hpos]
    simp [insertions]

/-- The row of set `n` is the queue of the insertions in `past`. -/
structure FifoState (w n : ℕ) (c : CacheT2) (past : List (UWord × Bool)) : Prop where
  assoc_eq : c.assoc = w
  pos : 0 < w
  lt_sets : (n : ℤ) < c.sets
  row_eq : c.row n = rowOf w (insertions past).reverse

/-- One call of `cachesim_setref_is_miss_fifo`. -/
theorem FifoState.step {w n : ℕ} (c : CacheT2) (past : List (UWord × Bool)) (t : UWord)
    (r : RandomStream) (h : FifoState w n c past) (ht : t ≠ 0) :
    ∃ c', cachesimSetrefIsMissFifo c n t r = .ok (fifoMisses w past t, c', r)
      ∧ FifoState w n c' (past ++ [(t, fifoMisses w past t)]) := by
  have hways : c.ways = w := by rw [CacheT2.ways, h.assoc_eq, Int.toNat_natCast]
  have hpos := h.pos
  obtain ⟨hok, hrow⟩ := onRow_eq_ok (f := fifoWays) (by have := h.assoc_eq; omega) h.lt_sets
    (by rw [h.row_eq, hways, fifoWays_rowOf hpos past ht r]) (by rw [length_rowOf, hways])
  exact ⟨_, hok, h.assoc_eq, hpos, h.lt_sets, hrow⟩

/-- A hit leaves the set as it is. -/
theorem fifo_hit {c c' : CacheT2} {n : ℕ} {t : UWord} {r r' : RandomStream}
    (h : cachesimSetrefIsMissFifo c n t r = .ok (false, c', r')) : c'.row n = c.row n := by
  by_cases hin : (n : ℤ) < c.sets ∧ 1 ≤ c.assoc
  · obtain ⟨hlen, hpos⟩ := c.row_of_lt hin
    rw [cachesimSetrefIsMissFifo, onRow_of_lt hin, fifoWays_eq hlen hpos] at h
    by_cases hmem : t ∈ c.row n
    · rw [if_pos hmem] at h
      cases h
      exact c.row_writeRow_self (by omega) hin.1 hlen
    · rw [if_neg hmem] at h
      cases h
  · rw [cachesimSetrefIsMissFifo, onRow, if_neg hin] at h
    cases h

/-- **The FIFO law.**  From the all-zero set, a reference misses iff its tag was not inserted yet or
at least `assoc` misses came after its last insertion; the set always holds the last
`min assoc (number of misses)` inserted tags, newest first, followed by zeros, and no hit changes
it. -/
theorem fifo_law {config : CacheT} {c : CacheT2} (hinit : cachesimInitcache config = .ok c)
    (hassoc : 1 ≤ config.assoc) {n : ℕ} (hn : (n : ℤ) < c.sets) (ts : List UWord)
    (hts : ∀ t ∈ ts, t ≠ 0) (r : RandomStream) :
    ∃ misses c', setRun n (ts.map fun t => (cachesimSetrefIsMissFifo, t)) c r = .ok (misses, c', r)
      ∧ misses.length = ts.length
      ∧ (∀ (k : ℕ) (t : UWord), ts[k]? = some t →
          (misses[k]? = some true ↔ t ∉ insertions ((ts.zip misses).take k)
            ∨ config.assoc ≤ (since (insertions ((ts.zip misses).take k)) t).length))
      ∧ c'.row n = (insertions (ts.zip misses)).reverse.take config.assoc.toNat
          ++ List.replicate (config.assoc.toNat - (insertions (ts.zip misses)).length) 0
      ∧ ∀ (d : CacheT2) (t : UWord) (r : RandomStream) (d' : CacheT2) (r' : RandomStream),
          cachesimSetrefIsMissFifo d n t r = .ok (false, d', r') → d'.row n = d.row n := by
  have hspec := initSpec_of_ok hinit
  have hassoc' : c.assoc = config.assoc.toNat := by rw [hspec.assoc_eq]; omega
  have hrow := hspec.row_eq (by omega) hn
  rw [CacheT2.ways, hspec.assoc_eq] at hrow
  obtain ⟨misses, c', hrun, hlen, h', hmiss⟩ := setRun_of_step _
    (fifoMisses config.assoc.toNat) FifoState.step ts hts []
    ⟨hassoc', by omega, hn, by rw [hrow, rowOf]; simp [insertions]⟩ r
  refine ⟨misses, c', hrun, hlen, fun k t hk => ?_, ?_, fun _ _ _ _ _ => fifo_hit⟩
  · rw [hmiss k t hk, nil_append, fifoMisses, Option.some.injEq, decide_eq_true_iff]
    refine or_congr_right ?_
    omega
  · rw [h'.row_eq, nil_append, rowOf, length_reverse]

/-- The law at a two-way set: `5 7 5 9 5` hits once, and the hit does not save `5` from `9`. -/
theorem fifo_law_small : ∃ c misses c', cachesimInitcache smallConfig = .ok c
    ∧ setRun 0 ([5, 7, 5, 9, 5].map fun t => (cachesimSetrefIsMissFifo, t)) c lcgStream
      = .ok (misses, c', lcgStream) ∧ misses.length = 5 := by
  obtain ⟨c, hc, hsets⟩ := exists_smallCache
  obtain ⟨misses, c', hrun, hlen, -⟩ := fifo_law hc (by decide) (n := 0)
    (by rw [hsets]; decide) [5, 7, 5, 9, 5] (by decide) lcgStream
  exact ⟨c, misses, c', hc, hrun, hlen⟩

end Valgrind.Cachegrind
