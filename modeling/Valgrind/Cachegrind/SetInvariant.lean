import Valgrind.Cachegrind.SetRef

/-!
# Cachegrind/SetInvariant — one set under any mixture of policies

The adaptive, naive, online and duelling modes switch the replacement function between two
references to the same array, so nothing about a set may depend on which function wrote it.
`RefSpec` is all that is used here: every function either keeps the tags of a set or installs one
new tag, so the nonzero tags stay distinct (`DistinctTags`) and come from the history
(`SetState`), and a referenced tag is always left in the set.
-/

namespace Valgrind.Cachegrind

open List

variable {tag : UWord} {miss : Bool} {set set' : List UWord} {n : ℕ} {c : CacheT2} {f : SetrefFn}

/-! ## Runs of references to one set -/

/-- A `cachesim_setref_is_miss_*` function. -/
abbrev SetrefFn :=
  CacheT2 → ℕ → UWord → RandomStream → Except Fault (Bool × CacheT2 × RandomStream)

/-- References to set `n`, one after the other, each through its own function: the results, the
cache and the random stream left over. -/
def setRun (n : ℕ) : List (SetrefFn × UWord) → CacheT2 → RandomStream →
    Except Fault (List Bool × CacheT2 × RandomStream)
  | [], c, r => .ok ([], c, r)
  | (f, tag) :: refs, c, r => do
      let (miss, c, r) ← f c n tag r
      let (misses, c, r) ← setRun n refs c r
      return (miss :: misses, c, r)

theorem setRun_cons {refs : List (SetrefFn × UWord)} {c₁ c₂ : CacheT2}
    {r r₁ r₂ : RandomStream} {misses : List Bool} (h₁ : f c n tag r = .ok (miss, c₁, r₁))
    (h₂ : setRun n refs c₁ r₁ = .ok (misses, c₂, r₂)) :
    setRun n ((f, tag) :: refs) c r = .ok (miss :: misses, c₂, r₂) := by
  simp [setRun, h₁, h₂, bind, Except.bind, pure, Except.pure]

/-- **A run of one function on nonzero tags**: if the invariant says of each reference, from the
history of tags and results so far, whether it misses, it says so along the run. -/
theorem setRun_of_step (Inv : CacheT2 → List (UWord × Bool) → Prop)
    (judge : List (UWord × Bool) → UWord → Bool)
    (hstep : ∀ c past t r, Inv c past → t ≠ 0 →
      ∃ c', f c n t r = .ok (judge past t, c', r) ∧ Inv c' (past ++ [(t, judge past t)])) :
    ∀ (ts : List UWord) (_ : ∀ t ∈ ts, t ≠ 0) (past : List (UWord × Bool)) {c : CacheT2}
      (_ : Inv c past) (r : RandomStream),
      ∃ misses c', setRun n (ts.map fun t => (f, t)) c r = .ok (misses, c', r)
        ∧ misses.length = ts.length ∧ Inv c' (past ++ ts.zip misses)
        ∧ ∀ (k : ℕ) (t : UWord), ts[k]? = some t →
            misses[k]? = some (judge (past ++ (ts.zip misses).take k) t)
  | [], _, past, c, h, r => ⟨[], c, rfl, rfl, by simpa using h, fun k t hk => by simp at hk⟩
  | u :: ts, hne, past, c, h, r => by
      obtain ⟨c₁, hok, h₁⟩ := hstep c past u r h (hne u (by simp))
      obtain ⟨misses, c₂, hrun, hlen, h₂, hmiss⟩ :=
        setRun_of_step Inv judge hstep ts (fun t ht => hne t (mem_cons_of_mem _ ht)) _ h₁ r
      refine ⟨_ :: misses, c₂, setRun_cons hok hrun, by simp [hlen], ?_, ?_⟩
      · rw [zip_cons_cons, append_cons]
        exact h₂
      · intro k t hk
        cases k with
        | zero =>
          obtain rfl : u = t := by simpa using hk
          simp
        | succ k =>
          rw [getElem?_cons_succ, zip_cons_cons, take_succ_cons, append_cons]
          exact hmiss k t (by simpa using hk)

/-! ## The tags of a set -/

/-- The nonzero tags of a set are pairwise distinct. -/
def DistinctTags (set : List UWord) : Prop := (set.filter fun t => t ≠ 0).Nodup

theorem distinctTags_replicate (n : ℕ) : DistinctTags (List.replicate n 0) := by
  simp [DistinctTags]

/-- Installing drops tags and adds one. -/
theorem Installed.exists_perm (h : Installed tag set set') :
    ∃ s, s.Sublist set ∧ set'.Perm (tag :: s) := by
  cases h with
  | front => exact ⟨set.dropLast, dropLast_sublist set, List.Perm.refl _⟩
  | atWay i h =>
    refine ⟨set.eraseIdx i, eraseIdx_sublist set i, ?_⟩
    rw [set_eq_take_append_cons_drop, if_pos h, eraseIdx_eq_take_drop_succ]
    exact perm_middle

section

variable (h : RefSpec tag set miss set')
include h

/-- **A reference leaves its tag in the set.** -/
theorem RefSpec.mem_self : tag ∈ set' := by
  cases h with
  | promoted _ => exact mem_cons_self
  | stayed h => exact h
  | installed _ hi =>
    obtain ⟨s, _, hperm⟩ := hi.exists_perm
    exact hperm.mem_iff.mpr mem_cons_self

/-- …and brings in no other. -/
theorem RefSpec.mem_of_mem {t : UWord} (ht : t ∈ set') : t = tag ∨ t ∈ set := by
  cases h with
  | promoted _ =>
    rcases mem_cons.mp ht with h1 | h1
    · exact Or.inl h1
    · exact Or.inr (mem_of_mem_erase h1)
  | stayed _ => exact Or.inr ht
  | installed _ hi =>
    obtain ⟨s, hsub, hperm⟩ := hi.exists_perm
    rcases mem_cons.mp (hperm.mem_iff.mp ht) with h1 | h1
    · exact Or.inl h1
    · exact Or.inr (hsub.subset h1)

/-- **A miss is a reference to a tag that is not stored.** -/
theorem RefSpec.miss_eq_false_iff : miss = false ↔ tag ∈ set := by
  cases h with
  | promoted h | stayed h => exact ⟨fun _ => h, fun _ => rfl⟩
  | installed h _ => exact ⟨fun hf => absurd hf (by simp), fun hm => absurd hm h⟩

/-- **No reference duplicates a tag.** -/
theorem RefSpec.distinctTags (hd : DistinctTags set) : DistinctTags set' := by
  cases h with
  | promoted h =>
    have hperm : (tag :: set.erase tag).Perm set := (perm_cons_erase h).symm
    exact (hperm.filter _).nodup_iff.mpr hd
  | stayed _ => exact hd
  | installed h hi =>
    obtain ⟨s, hsub, hperm⟩ := hi.exists_perm
    refine (hperm.filter _).nodup_iff.mpr ?_
    have hs : (s.filter fun t => t ≠ 0).Nodup := (hsub.filter _).nodup hd
    by_cases h0 : tag = 0
    · simpa [h0] using hs
    · rw [filter_cons_of_pos (by simpa using h0), nodup_cons]
      exact ⟨fun hmem => h (hsub.subset (mem_of_mem_filter hmem)), hs⟩

end

/-! ## The invariant along a run -/

/-- The state of a set after the references in `past`: its row, seen from the history. -/
structure SetState (c : CacheT2) (n : ℕ) (past : List UWord) : Prop where
  assoc_pos : 1 ≤ c.assoc
  lt_sets : (n : ℤ) < c.sets
  distinct : DistinctTags (c.row n)
  referenced : ∀ t ∈ c.row n, t ≠ 0 → t ∈ past

/-- The all-zero set of a fresh cache. -/
theorem setState_init {config : CacheT} (hinit : cachesimInitcache config = .ok c)
    (hassoc : 1 ≤ config.assoc) (hn : (n : ℤ) < c.sets) : SetState c n [] := by
  have hspec := initSpec_of_ok hinit
  have h1 : 1 ≤ c.assoc := by rw [hspec.assoc_eq]; exact hassoc
  have hrow := hspec.row_eq (by omega) hn
  refine ⟨h1, hn, by rw [hrow]; exact distinctTags_replicate _, fun t ht ht0 => ?_⟩
  rw [hrow] at ht
  exact absurd (eq_of_mem_replicate ht) ht0

/-- **One reference**, by any function: it succeeds, hits exactly the stored tags, leaves its own
tag stored, and keeps the invariant. -/
theorem SetState.step {past : List UWord} (h : SetState c n past) (throttle : ℚ) (p : Replacement)
    (tag : UWord) (r : RandomStream) :
    ∃ miss c' r', p.setref throttle c n tag r = .ok (miss, c', r')
      ∧ (miss = false ↔ tag ∈ c.row n) ∧ tag ∈ c'.row n ∧ SetState c' n (past ++ [tag]) := by
  obtain ⟨miss, set, r', hok, hspec, hlen⟩ := setref_ok throttle p h.assoc_pos h.lt_sets tag r
  have hrow : (c.writeRow n set).row n = set :=
    c.row_writeRow_self (by have := h.assoc_pos; omega) h.lt_sets hlen
  refine ⟨miss, c.writeRow n set, r', hok, hspec.miss_eq_false_iff, by rw [hrow]; exact hspec.mem_self,
    ⟨h.assoc_pos, h.lt_sets, by rw [hrow]; exact hspec.distinctTags h.distinct, ?_⟩⟩
  rw [hrow]
  intro t ht ht0
  rcases hspec.mem_of_mem ht with h1 | h1
  · exact mem_append_right _ (by simp [h1])
  · exact mem_append_left _ (h.referenced t h1 ht0)

/-- A reference by a function, a throttle and a tag. -/
structure PolicyRef where
  policy : Replacement
  throttle : ℚ
  tag : UWord

/-- The function and the tag of a reference, as `setRun` takes them. -/
def PolicyRef.call (x : PolicyRef) : SetrefFn × UWord := (x.policy.setref x.throttle, x.tag)

/-- **A whole run keeps the invariant.** -/
theorem SetState.run : ∀ (refs : List PolicyRef) {c : CacheT2} {past : List UWord}
    (_ : SetState c n past) (r : RandomStream),
    ∃ misses c' r', setRun n (refs.map PolicyRef.call) c r = .ok (misses, c', r')
      ∧ SetState c' n (past ++ refs.map PolicyRef.tag)
  | [], c, past, h, r => ⟨[], c, r, rfl, by simpa using h⟩
  | x :: refs, c, past, h, r => by
      obtain ⟨miss, c₁, r₁, hok, -, -, h₁⟩ := h.step x.throttle x.policy x.tag r
      obtain ⟨misses, c₂, r₂, hrun, h₂⟩ := SetState.run refs h₁ r₁
      refine ⟨miss :: misses, c₂, r₂, setRun_cons hok hrun, ?_⟩
      rw [map_cons, append_cons]
      exact h₂

/-- **The policy-independent set invariant.**  From the all-zero set of a fresh cache, after any
references by any of the five functions, each with its own throttle and on any random stream: the
nonzero tags are distinct and were referenced, and the next reference — again by any function —
hits iff its tag is stored and leaves it stored, so that an immediate re-reference hits. -/
theorem policy_independent_set_invariant {config : CacheT} {c : CacheT2}
    (hinit : cachesimInitcache config = .ok c) (hassoc : 1 ≤ config.assoc) {n : ℕ}
    (hn : (n : ℤ) < c.sets) (refs : List PolicyRef) (r : RandomStream) :
    ∃ misses c' r', setRun n (refs.map PolicyRef.call) c r = .ok (misses, c', r')
      ∧ ((c'.row n).filter fun t => t ≠ 0).Nodup
      ∧ (∀ t ∈ c'.row n, t ≠ 0 → t ∈ refs.map PolicyRef.tag)
      ∧ ∀ x : PolicyRef, ∃ miss c'' r'',
          x.policy.setref x.throttle c' n x.tag r' = .ok (miss, c'', r'')
            ∧ (miss = false ↔ x.tag ∈ c'.row n) ∧ x.tag ∈ c''.row n
            ∧ ∀ (p : Replacement) (throttle : ℚ), ∃ c₃ r₃,
                p.setref throttle c'' n x.tag r'' = .ok (false, c₃, r₃) := by
  obtain ⟨misses, c', r', hrun, h'⟩ := (setState_init hinit hassoc hn).run refs r
  refine ⟨misses, c', r', hrun, h'.distinct, fun t ht ht0 => by simpa using h'.referenced t ht ht0,
    fun x => ?_⟩
  obtain ⟨miss, c'', r'', hok, hiff, hmem, h''⟩ := h'.step x.throttle x.policy x.tag r'
  refine ⟨miss, c'', r'', hok, hiff, hmem, fun p throttle => ?_⟩
  obtain ⟨miss₃, c₃, r₃, hok₃, hiff₃, -, -⟩ := h''.step throttle p x.tag r''
  obtain rfl : miss₃ = false := hiff₃.mpr hmem
  exact ⟨c₃, r₃, hok₃⟩

/-- A two-way cache of two sets, for the concrete instances below. -/
def smallConfig : CacheT := ⟨64, 2, 16⟩

theorem exists_smallCache : ∃ c, cachesimInitcache smallConfig = .ok c ∧ c.sets = 2 :=
  ⟨_, rfl, rfl⟩

/-- The invariant at a set of `smallConfig`, for a run that switches from fifo to bip. -/
theorem policy_independent_set_invariant_small : ∃ c misses c' r',
    cachesimInitcache smallConfig = .ok c
      ∧ setRun 1 ([⟨.fifo, 0, 5⟩, ⟨.bip, 1 / 2, 7⟩, ⟨.random, 0, 5⟩].map PolicyRef.call) c lcgStream
        = .ok (misses, c', r')
      ∧ ((c'.row 1).filter fun t => t ≠ 0).Nodup := by
  obtain ⟨c, hc, hsets⟩ := exists_smallCache
  obtain ⟨misses, c', r', hrun, hnd, -⟩ := policy_independent_set_invariant hc (by decide)
    (n := 1) (by rw [hsets]; decide) [⟨.fifo, 0, 5⟩, ⟨.bip, 1 / 2, 7⟩, ⟨.random, 0, 5⟩] lcgStream
  exact ⟨c, misses, c', r', hc, hrun, hnd⟩

end Valgrind.Cachegrind
