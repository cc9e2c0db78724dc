import Valgrind.Cachegrind.SetInvariant

/-!
# Cachegrind/LruInclusion — more ways never miss more

Two caches with the same sets, one of `A₁` ways and one of `A₂ ≥ A₁`, are given the same references
by `cachesim_setref_is_miss_lru`.  Each row of the smaller cache stays a *prefix* of the row of the
larger one (`Included`), empty ways and all: a hit in the prefix rotates both rows alike, a hit
beyond it or a miss pushes the tag in front of both.
-/

namespace Valgrind.Cachegrind

open List

/-! ## References to any set -/

/-- References `(set_no, tag)` of one function to a cache: which of them missed, the cache and the
random stream left over. -/
def refRun (f : SetrefFn) : List (ℕ × UWord) → CacheT2 → RandomStream →
    Except Fault (List Bool × CacheT2 × RandomStream)
  | [], c, r => .ok ([], c, r)
  | (n, tag) :: refs, c, r => do
      let (miss, c, r) ← f c n tag r
      let (misses, c, r) ← refRun f refs c r
      return (miss :: misses, c, r)

theorem refRun_cons {f : SetrefFn} {n : ℕ} {tag : UWord} {refs : List (ℕ × UWord)}
    {c c₁ c₂ : CacheT2} {r r₁ r₂ : RandomStream} {miss : Bool} {misses : List Bool}
    (h₁ : f c n tag r = .ok (miss, c₁, r₁)) (h₂ : refRun f refs c₁ r₁ = .ok (misses, c₂, r₂)) :
    refRun f ((n, tag) :: refs) c r = .ok (miss :: misses, c₂, r₂) := by
  simp [refRun, h₁, h₂, bind, Except.bind, pure, Except.pure]

/-! ## One set -/

/-- **A reference keeps a prefix a prefix**, and misses in the prefix if it misses in the whole. -/
theorem lruWays_isPrefix {s₁ s₂ : List UWord} (h : s₁ <+: s₂) (hpos : 0 < s₁.length) (t : UWord)
    (r : RandomStream) :
    (lruWays s₁.length s₁ t r).2.1 <+: (lruWays s₂.length s₂ t r).2.1
      ∧ ((lruWays s₂.length s₂ t r).1 = true → (lruWays s₁.length s₁ t r).1 = true) := by
  obtain ⟨u, rfl⟩ := h
  rw [lruWays_eq rfl hpos, lruWays_eq rfl (by rw [length_append]; omega)]
  by_cases h₁ : t ∈ s₁
  · rw [if_pos h₁, if_pos (mem_append_left u h₁), erase_append_left u h₁]
    exact ⟨prefix_append (t :: s₁.erase t) u, id⟩
  · rw [if_neg h₁]
    refine ⟨?_, fun _ => rfl⟩
    by_cases h₂ : t ∈ s₁ ++ u
    -- the larger cache finds the tag beyond the prefix: the prefix is pushed down whole
    · rw [if_pos h₂, erase_append_right u h₁]
      exact (prefix_cons_inj t).mpr ((List.dropLast_prefix s₁).trans (prefix_append s₁ _))
    · rw [if_neg h₂]
      refine (prefix_cons_inj t).mpr ?_
      rw [dropLast_eq_take, dropLast_eq_take, length_append, take_append]
      refine (take_prefix_take_left (by omega)).trans (prefix_append _ _)

/-! ## Whole caches -/

/-- The larger cache extends each row of the smaller. -/
structure Included (c₁ c₂ : CacheT2) : Prop where
  assoc_pos : 1 ≤ c₁.assoc
  assoc_le : c₁.assoc ≤ c₂.assoc
  sets_eq : c₁.sets = c₂.sets
  row_prefix : ∀ n : ℕ, (n : ℤ) < c₁.sets → c₁.row n <+: c₂.row n

/-- `cachesim_setref_is_miss_lru` writes its row back and draws nothing. -/
theorem setrefLru_ok {c : CacheT2} {n : ℕ} (hn : (n : ℤ) < c.sets) (ha : 1 ≤ c.assoc) (t : UWord)
    (r : RandomStream) :
    cachesimSetrefIsMissLru c n t r
        = .ok ((lruWays c.ways (c.row n) t r).1,
            c.writeRow n (lruWays c.ways (c.row n) t r).2.1, r)
      ∧ (lruWays c.ways (c.row n) t r).2.1.length = c.ways := by
  obtain ⟨hlen, hpos⟩ := c.row_of_lt ⟨hn, ha⟩
  have hdraw : (lruWays c.ways (c.row n) t r).2.2 = r := by
    rw [lruWays_eq hlen hpos]
    split <;> rfl
  have hspec := refSpec_waysFn 0 .lru hlen hpos t r
  refine ⟨(onRow_of_lt ⟨hn, ha⟩ t r).trans (by rw [hdraw]), ?_⟩
  exact (hspec.length_eq (by omega)).trans hlen

/-- **One reference** to both caches. -/
theorem Included.step {c₁ c₂ : CacheT2} (h : Included c₁ c₂) {n : ℕ} (hn : (n : ℤ) < c₁.sets)
    (t : UWord) (r : RandomStream) :
    ∃ miss₁ miss₂ c₁' c₂', cachesimSetrefIsMissLru c₁ n t r = .ok (miss₁, c₁', r)
      ∧ cachesimSetrefIsMissLru c₂ n t r = .ok (miss₂, c₂', r)
      ∧ Included c₁' c₂' ∧ c₁'.sets = c₁.sets ∧ (miss₂ = true → miss₁ = true) := by
  have hn₂ : (n : ℤ) < c₂.sets := by rw [← h.sets_eq]; exact hn
  have ha₁ := h.assoc_pos
  have ha₂ : 1 ≤ c₂.assoc := ha₁.trans h.assoc_le
  obtain ⟨hok₁, hw₁⟩ := setrefLru_ok hn ha₁ t r
  obtain ⟨hok₂, hw₂⟩ := setrefLru_ok hn₂ ha₂ t r
  obtain ⟨hl₁, hpos⟩ := c₁.row_of_lt ⟨hn, ha₁⟩
  obtain ⟨hl₂, -⟩ := c₂.row_of_lt ⟨hn₂, ha₂⟩
  obtain ⟨hrow, hmiss⟩ := lruWays_isPrefix (h.row_prefix n hn) (hl₁ ▸ hpos) t r
  rw [hl₁, hl₂] at hrow hmiss
  refine ⟨_, _, _, _, hok₁, hok₂, ⟨ha₁, h.assoc_le, h.sets_eq, fun m hm => ?_⟩, rfl, hmiss⟩
  by_cases hmn : m = n
  · subst hmn
    rw [c₁.row_writeRow_self (by omega) hn hw₁, c₂.row_writeRow_self (by omega) hn₂ hw₂]
    exact hrow
  · rw [c₁.row_writeRow_of_ne hmn hw₁, c₂.row_writeRow_of_ne hmn hw₂]
    exact h.row_prefix m hm

/-- **A run of references** to both caches: the rows stay included, and the references that miss in
the larger cache are among those that miss in the smaller. -/
theorem Included.run : ∀ (refs : List (ℕ × UWord)) {c₁ c₂ : CacheT2} (_ : Included c₁ c₂)
    (_ : ∀ ref ∈ refs, (ref.1 : ℤ) < c₁.sets) (r : RandomStream),
    ∃ misses₁ misses₂ c₁' c₂', refRun cachesimSetrefIsMissLru refs c₁ r = .ok (misses₁, c₁', r)
      ∧ refRun cachesimSetrefIsMissLru refs c₂ r = .ok (misses₂, c₂', r)
      ∧ Included c₁' c₂' ∧ c₁'.sets = c₁.sets
      ∧ List.Forall₂ (fun miss₁ miss₂ => miss₂ = true → miss₁ = true) misses₁ misses₂
  | [], c₁, c₂, h, _, r => ⟨[], [], c₁, c₂, rfl, rfl, h, rfl, .nil⟩
  | (n, t) :: refs, c₁, c₂, h, hrefs, r => by
      obtain ⟨miss₁, miss₂, d₁, d₂, hok₁, hok₂, hd, hds, hmiss⟩ :=
        h.step (hrefs (n, t) (by simp)) t r
      obtain ⟨misses₁, misses₂, e₁, e₂, hrun₁, hrun₂, he, hes, hmisses⟩ :=
        Included.run refs hd (fun ref href => hds ▸ hrefs ref (mem_cons_of_mem _ href)) r
      exact ⟨_, _, e₁, e₂, refRun_cons hok₁ hrun₁, refRun_cons hok₂ hrun₂, he, hes.trans hds,
        .cons hmiss hmisses⟩

/-- The count of a list that implies another, entry by entry. -/
theorem count_le_of_forall₂ {l₁ l₂ : List Bool}
    (h : List.Forall₂ (fun b₁ b₂ => b₂ = true → b₁ = true) l₁ l₂) :
    l₂.count true ≤ l₁.count true := by
  induction h with
  | nil => exact le_rfl
  | @cons b₁ b₂ _ _ hb _ ih =>
    rw [count_cons, count_cons]
    cases b₂ with
    | false => simpa using Nat.le_add_right_of_le ih
    | true => simpa [hb rfl] using ih

section

variable {config₁ config₂ : CacheT} {c₁ c₂ : CacheT2}
  (h₁ : cachesimInitcache config₁ = .ok c₁) (h₂ : cachesimInitcache config₂ = .ok c₂)
  (hpos : 1 ≤ config₁.assoc) (hle : config₁.assoc ≤ config₂.assoc) (hsets : c₁.sets = c₂.sets)
include h₁ h₂ hpos hle hsets

/-- Two fresh caches: zeros extend zeros. -/
theorem included_init : Included c₁ c₂ := by
  have hs₁ := initSpec_of_ok h₁
  have hs₂ := initSpec_of_ok h₂
  have ha₁ : 1 ≤ c₁.assoc := by rw [hs₁.assoc_eq]; exact hpos
  have ha : c₁.assoc ≤ c₂.assoc := by rw [hs₁.assoc_eq, hs₂.assoc_eq]; exact hle
  refine ⟨ha₁, ha, hsets, fun n hn => ?_⟩
  rw [hs₁.row_eq (by omega) hn, hs₂.row_eq (by omega) (by omega)]
  have hways : c₂.ways = c₁.ways + (c₂.ways - c₁.ways) := by
    rw [CacheT2.ways, CacheT2.ways]
    omega
  rw [hways, replicate_add]
  exact prefix_append _ _

/-- **LRU inclusion.**  Whatever the references, after each of them every tag in a set of the
smaller cache is in the same set of the larger one, a miss of the larger is a miss of the smaller,
and so the larger misses at most as often. -/
theorem lru_inclusion (refs : List (ℕ × UWord)) (hrefs : ∀ ref ∈ refs, (ref.1 : ℤ) < c₁.sets)
    (r : RandomStream) :
    ∃ misses₁ misses₂ c₁' c₂', refRun cachesimSetrefIsMissLru refs c₁ r = .ok (misses₁, c₁', r)
      ∧ refRun cachesimSetrefIsMissLru refs c₂ r = .ok (misses₂, c₂', r)
      ∧ (∀ (n : ℕ) (t : UWord), (n : ℤ) < c₁.sets → t ∈ c₁'.row n → t ∈ c₂'.row n)
      ∧ List.Forall₂ (fun miss₁ miss₂ => miss₂ = true → miss₁ = true) misses₁ misses₂
      ∧ misses₂.count true ≤ misses₁.count true := by
  obtain ⟨misses₁, misses₂, c₁', c₂', hrun₁, hrun₂, h, hs, hmisses⟩ :=
    (included_init h₁ h₂ hpos hle hsets).run refs hrefs r
  exact ⟨misses₁, misses₂, c₁', c₂', hrun₁, hrun₂,
    fun n t hn ht => (h.row_prefix n (hs ▸ hn)).subset ht, hmisses, count_le_of_forall₂ hmisses⟩

end

/-- One set of one way beside one of two: `5 7 5` misses three times in the first, twice in the
second. -/
theorem lru_inclusion_small : ∃ c₁ c₂ misses₁ misses₂ c₁' c₂',
    cachesimInitcache ⟨32, 1, 16⟩ = .ok c₁ ∧ cachesimInitcache smallConfig = .ok c₂
    ∧ refRun cachesimSetrefIsMissLru [(0, 5), (0, 7), (0, 5)] c₁ lcgStream
      = .ok (misses₁, c₁', lcgStream)
    ∧ refRun cachesimSetrefIsMissLru [(0, 5), (0, 7), (0, 5)] c₂ lcgStream
      = .ok (misses₂, c₂', lcgStream)
    ∧ misses₂.count true ≤ misses₁.count true := by
  obtain ⟨c₁, h₁, hs₁⟩ : ∃ c₁, cachesimInitcache ⟨32, 1, 16⟩ = .ok c₁ ∧ c₁.sets = 2 := ⟨_, rfl, rfl⟩
  obtain ⟨c₂, h₂, hsets⟩ := exists_smallCache
  obtain ⟨misses₁, misses₂, c₁', c₂', hrun₁, hrun₂, -, -, hle⟩ :=
    lru_inclusion h₁ h₂ (by decide) (by decide) (hs₁.trans hsets.symm) [(0, 5), (0, 7), (0, 5)]
      (by rw [hs₁]; decide) lcgStream
  exact ⟨c₁, c₂, misses₁, misses₂, c₁', c₂', h₁, h₂, hrun₁, hrun₂, hle⟩

end Valgrind.Cachegrind
