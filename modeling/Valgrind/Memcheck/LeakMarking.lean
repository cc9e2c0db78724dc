import Valgrind.Foundations.Reachability
import Valgrind.Memcheck.LeakScan

/-!
# Memcheck/LeakMarking — the marking phase computes reachability

The words of the root areas, of the registers and of the blocks that point into blocks are the edges
of a graph; those that point at a first byte are its start edges.  A block off the mark stack has
passed its state on to the blocks its words point into, and a block whose state rises is pushed
again: when the stack is empty the states are closed under the edges.

**Marking** (`marking_eq_reachability`): the phase ends, no assertion fails, a block is `Reachable`
iff start edges lead to it from the roots, `Possible` iff other edges do, and else `Unreached`.
-/

namespace Valgrind.Memcheck

open List Function Chunk
open Reachability (Reach)

/-! ## The graph -/

/-- The first address behind a block; one of size 0 counts as one byte. -/
def Chunk.stop (ch : Chunk) : ℕ := ch.data + max ch.szB 1

namespace LeakSearch

variable (s : LeakSearch)

/-- The blocks are sorted and disjoint, lie in the client's address space, and no heuristic is
enabled. -/
structure Ok : Prop where
  sorted : s.chunks.Pairwise fun a b => a.stop ≤ b.data
  below : ∀ ch ∈ s.chunks, ch.data + ch.szB + 2 * smSize ≤ 2 ^ 64
  no_heuristics : s.heuristics = false

/-- The value points into a block, at an address the client may read. -/
def Points (v i : ℕ) : Prop :=
  ∃ ch, s.chunks[i]? = some ch ∧ s.client.amIsValidForClient v 1 ∧ ch.data ≤ v ∧ v < ch.stop

/-- …namely at its first byte. -/
def PointsAtStart (v i : ℕ) : Prop :=
  s.Points v i ∧ ∃ ch, s.chunks[i]? = some ch ∧ v = ch.data

/-- A valid aligned readable word of an area. -/
def AreaWord (start len v : ℕ) : Prop :=
  ∃ a, start ≤ a ∧ a + 8 ≤ start + len ∧ a % 8 = 0 ∧ s.client.word a = some v

/-- A word of a block. -/
def BlockWord (i v : ℕ) : Prop := ∃ ch, s.chunks[i]? = some ch ∧ s.AreaWord ch.data ch.szB v

/-- A word of a root area, or the value of a register. -/
def RootWord (roots : List (ℕ × ℕ)) (regs : List ℕ) (v : ℕ) : Prop :=
  (∃ seg ∈ roots, s.AreaWord seg.1 seg.2 v) ∨ v ∈ regs

/-- Start edges lead to the block from the roots. -/
def StartReach (roots : List (ℕ × ℕ)) (regs : List ℕ) : ℕ → Prop :=
  Reach (fun j => ∃ v, s.RootWord roots regs v ∧ s.PointsAtStart v j)
    fun i j => ∃ v, s.BlockWord i v ∧ s.PointsAtStart v j

/-- Edges lead to the block from the roots. -/
def EdgeReach (roots : List (ℕ × ℕ)) (regs : List ℕ) : ℕ → Prop :=
  Reach (fun j => ∃ v, s.RootWord roots regs v ∧ s.Points v j)
    fun i j => ∃ v, s.BlockWord i v ∧ s.Points v j

variable {s} {ptr : ℕ}

/-! ## Finding the block of a pointer -/

/-- Blocks in front of a block end before it. -/
theorem Ok.stop_le (hs : s.Ok) {i j : ℕ} {a b : Chunk} (hij : i < j) (ha : s.chunks[i]? = some a)
    (hb : s.chunks[j]? = some b) : a.stop ≤ b.data := by
  obtain ⟨hi, rfl⟩ := List.getElem?_eq_some_iff.mp ha
  obtain ⟨hj, rfl⟩ := List.getElem?_eq_some_iff.mp hb
  exact pairwise_iff_getElem.mp hs.sorted i j hi hj hij

theorem Points.unique (hs : s.Ok) {v i j : ℕ} (hi : s.Points v i) (hj : s.Points v j) : i = j := by
  obtain ⟨a, ha, -, hal, hah⟩ := hi
  obtain ⟨b, hb, -, hbl, hbh⟩ := hj
  rcases lt_trichotomy i j with hlt | heq | hgt
  · have := hs.stop_le hlt ha hb
    omega
  · exact heq
  · have := hs.stop_le hgt hb ha
    omega

/-- The end of a block as the search computes it. -/
theorem searchEnd_eq (ch : Chunk) :
    (if ch.szB = 0 then ch.data + ch.szB + 1 else ch.data + ch.szB) = ch.stop := by
  rw [stop]
  split_ifs <;> omega

/-- `find_chunk_for` finds the block that an address lies in. -/
theorem findChunkFor_some (hs : s.Ok) {i : ℕ} {ch : Chunk} (hi : s.chunks[i]? = some ch)
    (hlo : ch.data ≤ ptr) (hhi : ptr < ch.stop) : s.findChunkFor ptr = .ok (some i) := by
  have hlt : i < s.chunks.length := (List.getElem?_eq_some_iff.mp hi).1
  rw [findChunkFor]
  dsimp only
  rw [Bisection.bisect_eq_ok (n := s.chunks.length) (t := i) none ?_ (by omega) le_rfl (by omega)
    (by omega) (by omega)]
  · rfl
  intro j hj0 hjn
  lift j to ℕ using hj0
  obtain ⟨b, hb⟩ : ∃ b, s.chunks[j]? = some b := ⟨_, getElem?_eq_getElem (by omega)⟩
  simp only [Int.toNat_natCast, hb, searchEnd_eq]
  rcases lt_trichotomy i j with hij | rfl | hij
  · have := hs.stop_le hij hi hb
    rw [if_pos (by omega), compare_lt_iff_lt.mpr (by exact_mod_cast hij)]
  · obtain rfl : b = ch := by simpa [hb] using hi
    rw [if_neg (by omega), if_neg (by omega), compare_eq_iff_eq.mpr rfl]
  · have := hs.stop_le hij hb hi
    have : ch.data < ch.stop := by rw [stop]; omega
    have : b.data < b.stop := by rw [stop]; omega
    rw [if_neg (by omega), if_pos (by omega), compare_gt_iff_gt.mpr (by exact_mod_cast hij)]

/-- …and says so if there is none. -/
theorem findChunkFor_none
    (hno : ∀ (i : ℕ) (ch : Chunk), s.chunks[i]? = some ch → ¬ (ch.data ≤ ptr ∧ ptr < ch.stop)) :
    s.findChunkFor ptr = .ok none := by
  rw [findChunkFor]
  dsimp only
  rw [Bisection.bisect_eq_notFound none ?_]
  intro j hj0 hjn
  lift j to ℕ using hj0
  obtain ⟨b, hb⟩ : ∃ b, s.chunks[j]? = some b := ⟨_, getElem?_eq_getElem (by omega)⟩
  have := hno j b hb
  simp only [Int.toNat_natCast, hb, searchEnd_eq]
  split_ifs with h1 h2
  · exact .inl rfl
  · exact .inr rfl
  · omega

/-- `lc_is_a_chunk_ptr` of a pointer into a block. -/
theorem lcIsAChunkPtr_of_points (hs : s.Ok) {i : ℕ} (hp : s.Points ptr i) :
    ∃ ch, s.chunks[i]? = some ch ∧ s.lcIsAChunkPtr ptr = .ok (some (i, ch)) := by
  obtain ⟨ch, hi, ham, hlo, hhi⟩ := hp
  refine ⟨ch, hi, ?_⟩
  have hstop : ptr < ch.data + ch.szB + (if ch.szB = 0 then 1 else 0) := by
    rw [stop] at hhi
    split_ifs <;> omega
  rw [lcIsAChunkPtr, if_neg (by simpa using ham), findChunkFor_some hs hi hlo hhi]
  simp only [ok_bind, hi]
  rw [if_neg (by omega), if_neg (by simpa using hstop)]

/-- …and of any other value. -/
theorem lcIsAChunkPtr_of_not_points (hp : ∀ i, ¬ s.Points ptr i) :
    s.lcIsAChunkPtr ptr = .ok none := by
  rw [lcIsAChunkPtr]
  split_ifs with ham
  · rw [findChunkFor_none fun i ch hi hb => hp i ⟨ch, hi, ham, hb.1, hb.2⟩]
    rfl
  · rfl

end LeakSearch

/-! ## What a state records -/

/-- How far a block has been reached. -/
def Reachedness.level : Reachedness → ℕ
  | .unreached => 0
  | .indirectLeak => 0
  | .possible => 1
  | .reachable => 2

theorem Reachedness.level_le (r : Reachedness) : r.level ≤ 2 := by cases r <;> decide

namespace LeakState

/-- The level of a block. -/
def level (st : LeakState) (i : ℕ) : ℕ := (st.extras i).state.level

theorem level_le (st : LeakState) (i : ℕ) : st.level i ≤ 2 := Reachedness.level_le _

/-- How many blocks can still be popped, at most: those on the stack, and one for every rise of a
level. -/
def work (n : ℕ) (st : LeakState) : ℕ :=
  ∑ i ∈ Finset.range n, (2 - st.level i) + st.markstack.length

/-- The pending blocks are those on the stack, each once, and all have been reached. -/
structure Tidy (n : ℕ) (st : LeakState) : Prop where
  pending_iff : ∀ i, (st.extras i).pending ↔ i ∈ st.markstack
  nodup : st.markstack.Nodup
  lt : ∀ i ∈ st.markstack, i < n
  pos : ∀ i ∈ st.markstack, st.level i ≠ 0
  direct : ∀ i, (st.extras i).state ≠ .indirectLeak
  no_heuristic : ∀ i, (st.extras i).heuristic = .none

theorem tidy_init (n : ℕ) : Tidy n init :=
  ⟨by simp [init], by simp [init], by simp [init], by simp [init], by simp [init], by simp [init]⟩

/-- A stack of different numbers below `n` has room for `n` of them… -/
theorem length_le_of_nodup {l : List ℕ} {n : ℕ} (hl : l.Nodup) (hlt : ∀ i ∈ l, i < n) :
    l.length ≤ n := by
  have hsub : l ⊆ range n := fun j hj => mem_range.mpr (hlt j hj)
  simpa using (subperm_of_subset hl hsub).length_le

/-- …and for one more if some number is not on it. -/
theorem length_lt_of_nodup {l : List ℕ} {n i : ℕ} (hl : l.Nodup) (hlt : ∀ j ∈ l, j < n)
    (hi : i < n) (hnot : i ∉ l) : l.length < n :=
  length_le_of_nodup (nodup_cons.mpr ⟨hnot, hl⟩) (forall_mem_cons.mpr ⟨hi, hlt⟩)

theorem Tidy.length_lt {n : ℕ} {st : LeakState} (h : st.Tidy n) {i : ℕ} (hi : i < n)
    (hnot : i ∉ st.markstack) : st.markstack.length < n :=
  length_lt_of_nodup h.nodup h.lt hi hnot

end LeakState

/-! ## Visiting a word -/

namespace LeakSearch

variable {s : LeakSearch} {st st' st'' : LeakState} {d : Bool}

/-- What visiting words may change.  A block whose level rises is pending, and a visited word points
into it, to its start if it becomes reachable; what a visited word points into has been reached. -/
structure Grows (s : LeakSearch) (W : ℕ → Prop) (d : Bool) (st st' : LeakState) : Prop where
  mono : ∀ i, st.level i ≤ st'.level i
  pending : ∀ i, (st.extras i).pending → (st'.extras i).pending
  raised : ∀ i, st'.level i ≠ st.level i → (st'.extras i).pending
  reached : ∀ i, st.level i = 0 → st'.level i ≠ 0 → ∃ v, W v ∧ s.Points v i
  start : ∀ i, st.level i ≠ 2 → st'.level i = 2 → d ∧ ∃ v, W v ∧ s.PointsAtStart v i
  covers : ∀ v i, W v → s.Points v i → st'.level i ≠ 0
  covers_start : ∀ v i, W v → d → s.PointsAtStart v i → st'.level i = 2
  work : st'.work s.chunks.length ≤ st.work s.chunks.length

theorem Grows.refl {W : ℕ → Prop} (hc : ∀ v j, W v → s.Points v j → st.level j ≠ 0)
    (hc' : ∀ v j, W v → d → s.PointsAtStart v j → st.level j = 2) : Grows s W d st st :=
  ⟨fun _ => le_rfl, fun _ => id, fun _ h => absurd rfl h, fun _ h h' => absurd h h',
    fun _ h h' => absurd h' h, hc, hc', le_rfl⟩

theorem Grows.trans {W W' : ℕ → Prop} (h : Grows s W d st st') (h' : Grows s W' d st' st'') :
    Grows s (fun v => W v ∨ W' v) d st st'' where
  mono i := (h.mono i).trans (h'.mono i)
  pending i hp := h'.pending i (h.pending i hp)
  raised i hne := by
    by_cases hmid : st''.level i = st'.level i
    · exact h'.pending i (h.raised i (hmid ▸ hne))
    · exact h'.raised i hmid
  reached i h0 hne := by
    by_cases hmid : st'.level i = 0
    · obtain ⟨v, hv, hp⟩ := h'.reached i hmid hne
      exact ⟨v, .inr hv, hp⟩
    · obtain ⟨v, hv, hp⟩ := h.reached i h0 hmid
      exact ⟨v, .inl hv, hp⟩
  start i h2 heq := by
    by_cases hmid : st'.level i = 2
    · obtain ⟨hd, v, hv, hp⟩ := h.start i h2 hmid
      exact ⟨hd, v, .inl hv, hp⟩
    · obtain ⟨hd, v, hv, hp⟩ := h'.start i hmid heq
      exact ⟨hd, v, .inr hv, hp⟩
  covers v i hv hp := by
    rcases hv with hv | hv
    · have := h.covers v i hv hp
      have := h'.mono i
      omega
    · exact h'.covers v i hv hp
  covers_start v i hv hd hp := by
    rcases hv with hv | hv
    · have := h.covers_start v i hv hd hp
      have := h'.mono i
      have := st''.level_le i
      omega
    · exact h'.covers_start v i hv hd hp
  work := h'.work.trans h.work

theorem Grows.congr {W W' : ℕ → Prop} (hW : ∀ v, W v ↔ W' v) (h : Grows s W d st st') :
    Grows s W' d st st' := by
  obtain rfl : W = W' := funext fun v => propext (hW v)
  exact h

end LeakSearch

namespace LeakState

variable {n : ℕ} {st : LeakState} {i : ℕ} {r : Reachedness}

/-- A block's state rises and the block is pushed, unless it is on the stack. -/
def raise (st : LeakState) (i : ℕ) (r : Reachedness) : LeakState where
  extras := update st.extras i { st.extras i with state := r, pending := true }
  markstack := if (st.extras i).pending then st.markstack else i :: st.markstack

theorem level_raise (j : ℕ) : (st.raise i r).level j = if j = i then r.level else st.level j := by
  simp only [level, raise, update_apply]
  split_ifs <;> rfl

theorem pending_raise (j : ℕ) :
    ((st.raise i r).extras j).pending = if j = i then true else (st.extras j).pending := by
  simp only [raise, update_apply]
  split_ifs <;> rfl

theorem mem_markstack_raise (ht : st.Tidy n) (j : ℕ) :
    j ∈ (st.raise i r).markstack ↔ j = i ∨ j ∈ st.markstack := by
  simp only [raise]
  split_ifs with hp
  · refine ⟨.inr, ?_⟩
    rintro (rfl | hj)
    · exact (ht.pending_iff j).mp hp
    · exact hj
  · exact mem_cons

theorem Tidy.raise (ht : st.Tidy n) (hi : i < n) (hpos : r.level ≠ 0) : (st.raise i r).Tidy n where
  pending_iff j := by
    rw [mem_markstack_raise ht, pending_raise, ← ht.pending_iff]
    split_ifs with hj <;> simp [hj]
  nodup := by
    simp only [LeakState.raise]
    split_ifs with hp
    · exact ht.nodup
    · exact nodup_cons.mpr ⟨fun hm => hp ((ht.pending_iff i).mpr hm), ht.nodup⟩
  lt j hj := by
    rcases (mem_markstack_raise ht j).mp hj with rfl | hj
    · exact hi
    · exact ht.lt j hj
  pos j hj := by
    rw [level_raise]
    split_ifs with hji
    · exact hpos
    · exact ht.pos j (((mem_markstack_raise ht j).mp hj).resolve_left hji)
  direct j := by
    simp only [LeakState.raise, update_apply]
    split_ifs with hj
    · rintro rfl
      exact hpos rfl
    · exact ht.direct j
  no_heuristic j := by
    simp only [LeakState.raise, update_apply]
    split_ifs with hj
    · exact ht.no_heuristic i
    · exact ht.no_heuristic j

/-- A rise of a level makes up for the push. -/
theorem work_raise (hi : i < n) (hlt : st.level i < r.level) :
    (st.raise i r).work n ≤ st.work n := by
  have hle := r.level_le
  have hsum : ∑ j ∈ Finset.range n, (2 - (st.raise i r).level j) <
      ∑ j ∈ Finset.range n, (2 - st.level j) := by
    refine Finset.sum_lt_sum (fun j _ => ?_) ⟨i, Finset.mem_range.mpr hi, ?_⟩
    · rw [level_raise]
      split_ifs with hj
      · subst hj
        omega
      · exact le_rfl
    · rw [level_raise, if_pos rfl]
      omega
  have hlen : (st.raise i r).markstack.length ≤ st.markstack.length + 1 := by
    simp only [raise]
    split_ifs <;> simp
  rw [work, work]
  omega

/-- A block is flagged, or its flag is taken away. -/
theorem extras_modify_pending (st : LeakState) (i : ℕ) (b : Bool) (k : ℕ) :
    (st.modify i fun ex => { ex with pending := b }).extras k
      = { st.extras k with pending := if k = i then b else (st.extras k).pending } := by
  simp only [modify, update_apply]
  split_ifs with hk
  · rw [hk]
  · rfl

/-- The state after `i` has been popped. -/
def popped (st : LeakState) (i : ℕ) (rest : List ℕ) : LeakState :=
  { st with markstack := rest }.modify i fun ex => { ex with pending := false }

variable {rest : List ℕ}

theorem extras_popped (k : ℕ) : (st.popped i rest).extras k
    = { st.extras k with pending := if k = i then false else (st.extras k).pending } :=
  extras_modify_pending _ i false k

theorem level_popped (k : ℕ) : (st.popped i rest).level k = st.level k := by
  rw [level, extras_popped, level]

theorem Tidy.popped (ht : st.Tidy n) (hst : st.markstack = i :: rest)
    (hp : ∀ j, ((st.popped i rest).extras j).pending ↔ j ∈ rest) : (st.popped i rest).Tidy n where
  pending_iff := hp
  nodup := (nodup_cons.mp (hst ▸ ht.nodup)).2
  lt j hj := ht.lt j (hst ▸ mem_cons_of_mem _ hj)
  pos j hj := by
    rw [level_popped]
    exact ht.pos j (hst ▸ mem_cons_of_mem _ hj)
  direct j := by
    rw [extras_popped]
    exact ht.direct j
  no_heuristic j := by
    rw [extras_popped]
    exact ht.no_heuristic j

theorem work_popped (hst : st.markstack = i :: rest) : (st.popped i rest).work n + 1 = st.work n := by
  simp only [work, level_popped, hst, length_cons]
  rfl

end LeakState

namespace LeakSearch

open LeakState

variable {s : LeakSearch} {st st' : LeakState} {d : Bool} {v i : ℕ}

/-- Raising a state and pushing. -/
theorem lcPush_modify (ht : st.Tidy s.chunks.length) (hi : i < s.chunks.length) (r : Reachedness) :
    s.lcPush i (st.modify i fun _ => { st.extras i with state := r }) = .ok (st.raise i r) := by
  by_cases hp : (st.extras i).pending
  · rw [lcPush, if_neg (by simpa [LeakState.modify] using hp)]
    simp only [LeakState.modify, raise, hp, if_true]
  · have hnot : i ∉ st.markstack := fun hm => hp ((ht.pending_iff i).mpr hm)
    rw [lcPush, if_pos (by simpa [LeakState.modify] using hp),
      if_neg (by simpa [LeakState.modify] using ht.length_lt hi hnot)]
    simp [LeakState.modify, raise, hp]

theorem Points.lt (h : s.Points v i) : i < s.chunks.length :=
  let ⟨_, hi, _⟩ := h
  (List.getElem?_eq_some_iff.mp hi).1

/-- A word that raises the block it points into. -/
theorem grows_raise (hs : s.Ok) (hp : s.Points v i) {r : Reachedness} (hlt : st.level i < r.level)
    (h2 : r.level = 2 → d ∧ s.PointsAtStart v i) (h2' : d → s.PointsAtStart v i → r.level = 2) :
    Grows s (fun w => w = v) d st (st.raise i r) where
  mono j := by
    rw [level_raise]
    split_ifs with hj
    · exact hj ▸ hlt.le
    · exact le_rfl
  pending j hj := by
    rw [pending_raise, hj, ite_self]
  raised j hne := by
    rw [level_raise] at hne
    rw [pending_raise]
    split_ifs at hne ⊢ with hj
    · rfl
    · exact absurd rfl hne
  reached j h0 hne := by
    rw [level_raise] at hne
    split_ifs at hne with hj
    · exact ⟨v, rfl, hj ▸ hp⟩
    · exact absurd h0 hne
  start j hne heq := by
    rw [level_raise] at heq
    split_ifs at heq with hj
    · exact ⟨(h2 heq).1, v, rfl, hj ▸ (h2 heq).2⟩
    · exact absurd heq hne
  covers w j hw hpj := by
    subst hw
    rw [hpj.unique hs hp, level_raise, if_pos rfl]
    omega
  covers_start w j hw hd hpj := by
    subst hw
    obtain rfl := hpj.1.unique hs hp
    rw [level_raise, if_pos rfl]
    exact h2' hd hpj
  work := work_raise hp.lt hlt

/-- A word that changes nothing. -/
theorem grows_same (hc : ∀ j, s.Points v j → st.level j ≠ 0)
    (hc' : ∀ j, d → s.PointsAtStart v j → st.level j = 2) : Grows s (fun w => w = v) d st st :=
  .refl (fun _ j hw hp => hc j (hw ▸ hp)) fun _ j hw hd hp => hc' j hd (hw ▸ hp)

section Visit

variable (hs : s.Ok) (ht : st.Tidy s.chunks.length)
include hs ht

/-- A word that points into a block: the block becomes reachable if the word is a start pointer with
a definite prior, and possible if it was unreached. -/
theorem lcPushWithoutClique_of_points {ch : Chunk} (hi : s.chunks[i]? = some ch)
    (hptr : s.lcIsAChunkPtr v = .ok (some (i, ch))) : s.lcPushWithoutClique v d st =
      if (st.extras i).state = .reachable then .ok st
      else if v = ch.data ∧ d then .ok (st.raise i .reachable)
      else if (st.extras i).state = .unreached then .ok (st.raise i .possible)
      else .ok st := by
  have hlt : i < s.chunks.length := (List.getElem?_eq_some_iff.mp hi).1
  have hvia : s.chViaPtr v i ch (st.extras i) =
      (st.extras i, if v = ch.data then .reachable else .possible) := by
    rw [chViaPtr, hs.no_heuristics]
    split_ifs <;> first | rfl | contradiction
  have hvia' : ((if v = ch.data then Reachedness.reachable else .possible) = .reachable ∧ d = true)
      ↔ v = ch.data ∧ d = true := by
    split_ifs with hv <;> simp [hv]
  have hheur : ¬ ((st.extras i).heuristic ≠ .none ∧ v = ch.data) := by simp [ht.no_heuristic i]
  rw [lcPushWithoutClique, hptr]
  simp only [ok_bind, hvia, hvia', if_neg hheur, lcPush_modify ht hlt, pure_eq_ok]
  split_ifs <;> first | rfl | simp [LeakState.modify]

/-- **Visiting a word.** -/
theorem lcPushWithoutClique_spec (v : ℕ) (d : Bool) :
    ∃ st', s.lcPushWithoutClique v d st = .ok st' ∧ st'.Tidy s.chunks.length ∧
      Grows s (fun w => w = v) d st st' := by
  by_cases hex : ∃ i, s.Points v i
  swap
  · have hno : ∀ i, ¬ s.Points v i := fun i hi => hex ⟨i, hi⟩
    refine ⟨st, ?_, ht, grows_same (fun j hj => absurd hj (hno j))
      fun j _ hj => absurd hj.1 (hno j)⟩
    rw [lcPushWithoutClique, lcIsAChunkPtr_of_not_points hno]
    rfl
  obtain ⟨i, hp⟩ := hex
  obtain ⟨ch, hi, hptr⟩ := lcIsAChunkPtr_of_points hs hp
  have hstart : s.PointsAtStart v i ↔ v = ch.data := by
    refine ⟨fun ⟨_, ch', hi', hv⟩ => ?_, fun hv => ⟨hp, ch, hi, hv⟩⟩
    rw [hi] at hi'
    cases hi'
    exact hv
  have hlevel : st.level i = (st.extras i).state.level := rfl
  have hdirect := ht.direct i
  rw [lcPushWithoutClique_of_points hs ht hi hptr]
  split_ifs with hreach hdef hun
  · rw [hreach] at hlevel
    refine ⟨st, rfl, ht, grows_same (fun j hj => ?_) fun j _ hj => ?_⟩
    · rw [hj.unique hs hp, hlevel]
      decide
    · rw [hj.1.unique hs hp, hlevel]
      rfl
  · have hlt : st.level i < 2 := by
      rw [hlevel]
      revert hreach
      cases (st.extras i).state <;> decide
    exact ⟨_, rfl, ht.raise hp.lt (by decide), grows_raise hs hp hlt
      (fun _ => ⟨hdef.2, hstart.mpr hdef.1⟩) fun _ _ => rfl⟩
  · rw [hun] at hlevel
    exact ⟨_, rfl, ht.raise hp.lt (by decide), grows_raise hs hp (by rw [hlevel]; decide)
      (fun h => by cases h) fun hd hv => absurd ⟨hstart.mp hv, hd⟩ hdef⟩
  · have hone : st.level i = 1 := by
      rw [hlevel]
      revert hreach hun hdirect
      cases (st.extras i).state <;> simp [Reachedness.level]
    refine ⟨st, rfl, ht, grows_same (fun j hj => ?_) fun j hd hj => ?_⟩
    · rw [hj.unique hs hp, hone]
      decide
    · obtain rfl := hj.1.unique hs hp
      exact absurd ⟨hstart.mp hj, hd⟩ hdef

/-- …and visiting several. -/
theorem foldlM_visit_spec (d : Bool) (l : List ℕ) :
    ∃ st', l.foldlM (fun st v => s.lcPushWithoutClique v d st) st = .ok st' ∧
      st'.Tidy s.chunks.length ∧ Grows s (fun v => v ∈ l) d st st' := by
  induction l generalizing st with
  | nil => exact ⟨st, rfl, ht, .refl (by simp) (by simp)⟩
  | cons v l ih =>
    obtain ⟨st₁, hv, ht₁, hg₁⟩ := lcPushWithoutClique_spec hs ht v d
    obtain ⟨st₂, hl, ht₂, hg₂⟩ := ih ht₁
    refine ⟨st₂, ?_, ht₂, (hg₁.trans hg₂).congr fun w => by simp⟩
    rw [foldlM_cons, hv, ok_bind, hl]

/-- **Scanning an area** visits its words. -/
theorem lcScanMemory_spec (d : Bool) (cur : ℕ) {start len : ℕ}
    (hend : start + len + 2 * smSize ≤ 2 ^ 64) :
    ∃ st', s.client.lcScanMemory (fun ptr => s.lcPushIfAChunkPtr ptr none cur d) start len st =
        .ok st' ∧ st'.Tidy s.chunks.length ∧ Grows s (s.AreaWord start len) d st st' := by
  obtain ⟨l, heq, hmem⟩ := Client.lcScanMemory_eq (c := s.client)
    (fun ptr => s.lcPushIfAChunkPtr ptr none cur d) hend st
  obtain ⟨st', hl, ht', hg⟩ := foldlM_visit_spec hs ht d l
  exact ⟨st', heq.trans hl, ht', hg.congr hmem⟩

/-- The root areas. -/
theorem scanMemoryRootSet_spec {roots : List (ℕ × ℕ)}
    (hroots : ∀ seg ∈ roots, seg.1 + seg.2 + 2 * smSize ≤ 2 ^ 64) :
    ∃ st', s.scanMemoryRootSet roots st = .ok st' ∧ st'.Tidy s.chunks.length ∧
      Grows s (fun v => ∃ seg ∈ roots, s.AreaWord seg.1 seg.2 v) true st st' := by
  induction roots generalizing st with
  | nil => exact ⟨st, rfl, ht, .refl (by simp) (by simp)⟩
  | cons seg roots ih =>
    obtain ⟨st₁, hseg, ht₁, hg₁⟩ := lcScanMemory_spec hs ht true 0 (hroots seg (by simp))
    obtain ⟨st₂, hrest, ht₂, hg₂⟩ := ih ht₁ fun seg' h => hroots seg' (by simp [h])
    refine ⟨st₂, ?_, ht₂, (hg₁.trans hg₂).congr fun w => by simp⟩
    rw [scanMemoryRootSet, foldlM_cons, hseg, ok_bind]
    exact hrest

end Visit

/-! ## Processing the stack -/

/-- What has been marked is reached, and what is off the stack has been passed on. -/
structure Marked (s : LeakSearch) (roots : List (ℕ × ℕ)) (regs : List ℕ) (st : LeakState) :
    Prop where
  tidy : st.Tidy s.chunks.length
  sound : ∀ i, st.level i ≠ 0 → s.EdgeReach roots regs i
  sound_start : ∀ i, st.level i = 2 → s.StartReach roots regs i
  root : ∀ v j, s.RootWord roots regs v → s.Points v j → st.level j ≠ 0
  root_start : ∀ v j, s.RootWord roots regs v → s.PointsAtStart v j → st.level j = 2
  closed : ∀ i, ¬ (st.extras i).pending → st.level i ≠ 0 →
    ∀ v j, s.BlockWord i v → s.Points v j → st.level j ≠ 0
  closed_start : ∀ i, ¬ (st.extras i).pending → st.level i = 2 →
    ∀ v j, s.BlockWord i v → s.PointsAtStart v j → st.level j = 2

variable {roots : List (ℕ × ℕ)} {regs rest : List ℕ}

/-- After the roots have been scanned. -/
theorem Grows.marked (ht : st.Tidy s.chunks.length)
    (hg : Grows s (s.RootWord roots regs) true .init st) : Marked s roots regs st where
  tidy := ht
  sound i hi :=
    let ⟨v, hv, hp⟩ := hg.reached i rfl hi
    .of_root ⟨v, hv, hp⟩
  sound_start i hi :=
    let ⟨_, v, hv, hp⟩ := hg.start i (by simp [level, init,
      Reachedness.level]) hi
    .of_root ⟨v, hv, hp⟩
  root := hg.covers
  root_start v j hv hp := hg.covers_start v j hv rfl hp
  -- whatever has been reached is still on the stack
  closed i hi hne := absurd (hg.raised i hne) hi
  closed_start i hi heq := absurd (hg.raised i (by rw [heq]; nofun)) hi

/-- `lc_pop` from a stack that is not empty. -/
theorem lcPop_cons (hp : ∀ j, (st.extras j).pending ↔ j ∈ st.markstack)
    (hnd : st.markstack.Nodup) (hlt : ∀ j ∈ st.markstack, j < s.chunks.length)
    (hst : st.markstack = i :: rest) : s.lcPop st = .ok (some (i, st.popped i rest)) ∧
      ∀ j, ((st.popped i rest).extras j).pending ↔ j ∈ rest := by
  have hlen := length_le_of_nodup hnd hlt
  have htop : (st.extras i).pending := (hp i).mpr (by simp [hst])
  rw [hst] at hlen hnd
  refine ⟨?_, fun j => ?_⟩
  · rw [lcPop, hst]
    dsimp only
    rw [if_neg (by simpa using hlen), if_neg (by simpa using htop)]
    rfl
  · rw [extras_popped]
    dsimp only
    split_ifs with hj
    · simpa [hj] using (nodup_cons.mp hnd).1
    · rw [hp, hst, mem_cons, or_iff_right hj]

/-- A turn of `lc_process_markstack`: the block `i` is popped and scanned. -/
def Turns (s : LeakSearch) (clique : Option ℕ) (i : ℕ) (st st₂ : LeakState) : Prop :=
  ∃ ch st₁, s.lcPop st = .ok (some (i, st₁)) ∧ s.chunks[i]? = some ch ∧
    s.client.lcScanMemory (fun ptr => s.lcPushIfAChunkPtr ptr clique i
      (decide ((st₁.extras i).state ≠ .possible))) ch.data ch.szB st₁ = .ok st₂

/-- **The stack becomes empty**, if each turn keeps an invariant and leaves less work. -/
theorem lcProcessMarkstack_rule {clique : Option ℕ} {I : LeakState → Prop} {w : LeakState → ℕ}
    (hlen : ∀ st, st.markstack.length ≤ w st) (hturn : ∀ {st i rest}, I st →
      st.markstack = i :: rest → ∃ st₂, s.Turns clique i st st₂ ∧ I st₂ ∧ w st₂ < w st)
    {fuel : ℕ} (h : I st) (hfuel : w st ≤ fuel) :
    ∃ st', s.lcProcessMarkstack clique fuel st = .ok st' ∧ I st' ∧ st'.markstack = [] := by
  induction fuel generalizing st with
  | zero =>
    have hempty : st.markstack = [] := length_eq_zero_iff.mp (by have := hlen st; omega)
    exact ⟨st, by rw [lcProcessMarkstack, if_pos hempty], h, hempty⟩
  | succ fuel ih =>
    rw [lcProcessMarkstack]
    cases hst : st.markstack with
    | nil =>
      refine ⟨st, ?_, h, hst⟩
      rw [lcPop, hst]
      rfl
    | cons i rest =>
      obtain ⟨st₂, ⟨ch, st₁, hpop, hch, hscan⟩, h₂, hlt⟩ := hturn h hst
      obtain ⟨st', hrest, h', hempty⟩ := ih h₂ (by omega)
      refine ⟨st', ?_, h', hempty⟩
      rw [hpop]
      simp only [ok_bind, hch]
      rw [hscan, ok_bind, hrest]

/-- **A turn of the marking.** -/
theorem Marked.turn (hs : s.Ok) (hm : Marked s roots regs st) (hst : st.markstack = i :: rest) :
    ∃ st₂, s.Turns none i st st₂ ∧ Marked s roots regs st₂ ∧
      st₂.work s.chunks.length < st.work s.chunks.length := by
  have hmem : i ∈ st.markstack := by simp [hst]
  obtain ⟨hpop, hpend⟩ := lcPop_cons hm.tidy.pending_iff hm.tidy.nodup hm.tidy.lt hst
  obtain ⟨ch, hch⟩ : ∃ ch, s.chunks[i]? = some ch :=
    ⟨_, getElem?_eq_getElem (hm.tidy.lt i hmem)⟩
  have hblock : ∀ v, s.BlockWord i v ↔ s.AreaWord ch.data ch.szB v := by
    intro v
    refine ⟨fun ⟨ch', hch', hv⟩ => ?_, fun hv => ⟨ch, hch, hv⟩⟩
    rw [hch] at hch'
    cases hch'
    exact hv
  -- the prior is definite iff the block is reachable
  have hdef : decide (((st.popped i rest).extras i).state ≠ .possible) = true
      ↔ st.level i = 2 := by
    have hpos := hm.tidy.pos i hmem
    rw [extras_popped, decide_eq_true_iff]
    rw [level] at hpos ⊢
    revert hpos
    cases (st.extras i).state <;> simp [Reachedness.level]
  obtain ⟨st₂, hscan, ht₂, hg⟩ := lcScanMemory_spec hs
    (hm.tidy.popped hst hpend) (decide (((st.popped i rest).extras i).state ≠ .possible)) i
    (hs.below ch (mem_of_getElem? hch))
  have hsame : ∀ k, ¬ (st₂.extras k).pending → st₂.level k = st.level k := by
    intro k hk
    by_contra hne
    exact hk (hg.raised k (by rwa [level_popped]))
  have hkept : ∀ k, k ≠ i → ¬ (st₂.extras k).pending → ¬ (st.extras k).pending :=
    fun k hki hk h => hk (hg.pending k (by rwa [extras_popped, if_neg hki]))
  have hgrow : ∀ k, st.level k ≤ st₂.level k := fun k => level_popped k ▸ hg.mono k
  refine ⟨st₂, ⟨ch, _, hpop, hch, hscan⟩, ⟨ht₂, fun k hk => ?_, fun k hk => ?_, fun v j hv hp => ?_,
    fun v j hv hp => ?_, fun k hk hne v j hv hp => ?_, fun k hk heq v j hv hp => ?_⟩, ?_⟩
  · by_cases hold : st.level k = 0
    · obtain ⟨v, hv, hp⟩ := hg.reached k ((level_popped k).trans hold) hk
      exact (hm.sound i (hm.tidy.pos i hmem)).step ⟨v, (hblock v).mpr hv, hp⟩
    · exact hm.sound k hold
  · by_cases hold : st.level k = 2
    · exact hm.sound_start k hold
    · obtain ⟨hd, v, hv, hp⟩ := hg.start k (by rwa [level_popped]) hk
      exact (hm.sound_start i (hdef.mp hd)).step ⟨v, (hblock v).mpr hv, hp⟩
  · have := hm.root v j hv hp
    have := hgrow j
    omega
  · have := hm.root_start v j hv hp
    have := hgrow j
    have := st₂.level_le j
    omega
  · by_cases hki : k = i
    · subst hki
      exact hg.covers v j ((hblock v).mp hv) hp
    · have := hm.closed k (hkept k hki hk) (by rwa [← hsame k hk]) v j hv hp
      have := hgrow j
      omega
  · by_cases hki : k = i
    · subst hki
      exact hg.covers_start v j ((hblock v).mp hv) (hdef.mpr (by rw [← hsame k hk, heq])) hp
    · have := hm.closed_start k (hkept k hki hk) (by rwa [← hsame k hk]) v j hv hp
      have := hgrow j
      have := st₂.level_le j
      omega
  · have := hg.work
    have := work_popped (n := s.chunks.length) hst
    omega

/-- With an empty stack the levels are those of reachability. -/
theorem Marked.level_iff (hm : Marked s roots regs st) (hempty : st.markstack = []) (i : ℕ) :
    (st.level i ≠ 0 ↔ s.EdgeReach roots regs i) ∧ (st.level i = 2 ↔ s.StartReach roots regs i) := by
  have hnot : ∀ k, ¬ (st.extras k).pending := fun k hk => by
    simpa [hempty] using (hm.tidy.pending_iff k).mp hk
  refine ⟨⟨hm.sound i, fun h => ?_⟩, ⟨hm.sound_start i, fun h => ?_⟩⟩
  · exact h.subset (M := fun i => st.level i ≠ 0) (fun j ⟨v, hv, hp⟩ => hm.root v j hv hp)
      fun k j hk ⟨v, hv, hp⟩ => hm.closed k (hnot k) hk v j hv hp
  · exact h.subset (M := fun i => st.level i = 2) (fun j ⟨v, hv, hp⟩ => hm.root_start v j hv hp)
      fun k j hk ⟨v, hv, hp⟩ => hm.closed_start k (hnot k) hk v j hv hp

/-- `VG_(ssort)` with `compare_MC_Chunks`. -/
def sortChunks (blocks : List Chunk) : List Chunk := blocks.mergeSort fun a b => a.data ≤ b.data

/-- Two blocks share no byte, a block of size 0 counting as one byte. -/
def BlocksDisjoint (a b : Chunk) : Prop := a.stop ≤ b.data ∨ b.stop ≤ a.data

theorem pairwise_sortChunks {blocks : List Chunk} (h : blocks.Pairwise BlocksDisjoint) :
    (sortChunks blocks).Pairwise fun a b => a.stop ≤ b.data := by
  have hperm : (sortChunks blocks).Perm blocks := mergeSort_perm _ _
  have hsorted : (sortChunks blocks).Pairwise fun a b => decide (a.data ≤ b.data) = true :=
    pairwise_mergeSort (fun a b c hab hbc => by simp only [decide_eq_true_eq] at *; omega)
      (fun a b => by simp only [Bool.or_eq_true, decide_eq_true_eq]; omega) blocks
  refine (hsorted.and ((hperm.pairwise_iff fun h => h.symm).mpr h)).imp ?_
  rintro a b ⟨hle, hdis⟩
  have hlt : b.data < b.stop := by rw [stop]; omega
  simp only [decide_eq_true_eq] at hle
  rcases hdis with hdis | hdis <;> omega

/-- **Marking computes reachability.**  With pairwise disjoint blocks and no heuristics the marking
phase ends without a failed assertion, so that the stack never has more entries than there are
blocks; the states of the blocks are then those of reachability. -/
theorem marking_eq_reachability (blocks : List Chunk) (hblocks : blocks.Pairwise BlocksDisjoint)
    (hchunks : s.chunks = sortChunks blocks)
    (hbelow : ∀ ch ∈ blocks, ch.data + ch.szB + 2 * smSize ≤ 2 ^ 64)
    (hheur : s.heuristics = false)
    (hroots : ∀ seg ∈ roots, seg.1 + seg.2 + 2 * smSize ≤ 2 ^ 64) {fuel : ℕ}
    (hfuel : 2 * blocks.length ≤ fuel) :
    ∃ st, s.markReachable roots regs fuel = .ok st ∧ st.markstack = [] ∧ ∀ i < blocks.length,
      ((st.extras i).state = .reachable ↔ s.StartReach roots regs i) ∧
      ((st.extras i).state = .possible ↔
        ¬ s.StartReach roots regs i ∧ s.EdgeReach roots regs i) ∧
      ((st.extras i).state = .unreached ↔ ¬ s.EdgeReach roots regs i) := by
  have hperm : s.chunks.Perm blocks := hchunks ▸ mergeSort_perm _ _
  have hs : s.Ok := ⟨hchunks ▸ pairwise_sortChunks hblocks,
    fun ch hch => hbelow ch (hperm.mem_iff.mp hch), hheur⟩
  obtain ⟨st₁, h₁, ht₁, hg₁⟩ :=
    scanMemoryRootSet_spec hs (tidy_init s.chunks.length) hroots
  obtain ⟨st₂, h₂, ht₂, hg₂⟩ := foldlM_visit_spec hs ht₁ true regs
  have hg : Grows s (s.RootWord roots regs) true .init st₂ := (hg₁.trans hg₂).congr fun _ => Iff.rfl
  have hwork : st₂.work s.chunks.length ≤ fuel := by
    have hinit : init.work s.chunks.length = 2 * s.chunks.length := by
      simp [work, level, init, Reachedness.level, mul_comm]
    have := hg.work
    have := hperm.length_eq
    omega
  obtain ⟨st, h₃, hm, hempty⟩ := lcProcessMarkstack_rule (fun _ => Nat.le_add_left _ _)
    (fun hm hst => Marked.turn hs hm hst) (hg.marked ht₂) hwork
  refine ⟨st, ?_, hempty, fun i _ => ?_⟩
  · rw [markReachable, h₁, ok_bind, scanRegisters, h₂, ok_bind, h₃]
  · obtain ⟨hedge, hstart⟩ := hm.level_iff hempty i
    have hdirect := hm.tidy.direct i
    rw [← hedge, ← hstart, level]
    revert hdirect
    cases (st.extras i).state <;> simp [Reachedness.level]

/-! ## On examples -/

/-- A client that may read all pages but one, and has a pointer to `0x5000` at `0x1000`. -/
def demoClient (hidden : ℕ) : Client where
  isWithinValidSecondary _ := true
  amIsValidForClient a _ := a / pageSize ≠ hidden
  isValidAlignedWord _ := true
  load a := if a = 0x1000 then some 0x5000 else some 0
  secondary_eq _ _ _ := rfl
  valid_secondary _ _ := rfl
  readable_eq a b _ _ h := by rw [h]

/-- One block at `0x5000`. -/
def demoSearch (hidden : ℕ) : LeakSearch :=
  ⟨demoClient hidden, [⟨0x5000, 16, .malloc⟩], false, fun _ _ => .none⟩

theorem marking_eq_reachability_one :
    [(⟨0x5000, 16, .malloc⟩ : Chunk)].Pairwise BlocksDisjoint ∧
    ∃ st, (demoSearch 9).markReachable [(0x1000, 8)] [] 2 = .ok st ∧ st.markstack = [] ∧ ∀ i < 1,
      ((st.extras i).state = .reachable ↔ (demoSearch 9).StartReach [(0x1000, 8)] [] i) ∧
      ((st.extras i).state = .possible ↔ ¬ (demoSearch 9).StartReach [(0x1000, 8)] [] i ∧
        (demoSearch 9).EdgeReach [(0x1000, 8)] [] i) ∧
      ((st.extras i).state = .unreached ↔ ¬ (demoSearch 9).EdgeReach [(0x1000, 8)] [] i) :=
  ⟨pairwise_singleton _ _, marking_eq_reachability [⟨0x5000, 16, .malloc⟩]
    (pairwise_singleton _ _) (by simp [demoSearch, sortChunks]) (by simp [smSize]) rfl
    (by simp [smSize]) (by decide)⟩

/-- A root word points at the first byte of a block in a page the client may not read; the block
stays unreached. -/
theorem unreadable_block_unreached :
    (demoClient 5).word 0x1000 = some 0x5000 ∧
    (demoSearch 5).chunks = [⟨0x5000, 16, .malloc⟩] ∧
    ((demoSearch 5).markReachable [(0x1000, 8)] [] 2).map (fun st => (st.extras 0).state) =
      .ok .unreached := by
  decide +kernel

end LeakSearch

end Valgrind.Memcheck
