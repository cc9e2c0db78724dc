import Valgrind.Foundations.SparseVector
import Valgrind.Drd.VectorClock

/-!
# Drd/ClockAlgebra — the lattice of vector clocks

`VectorClock.Valid` is what `vc_check` checks, with positive counts and the storage invariant.  Over
valid clocks `vc_lte` is the pointwise order, `vc_combine` the pointwise maximum and `vc_increment`
one tick (`clock_algebra`), so that combining is the least upper bound.  Two things stop them: a
count that is already `2 ^ 32 - 1`, and a combination that would hold all `2 ^ 32` thread ids.
-/

namespace Valgrind.Drd

open List Nat
open Alignment SparseVector VectorClock

variable {v rhs : VectorClock} {p q r l as bs : List VCElem} {e x f : VCElem} {n : ℕ}

open VCElem (threadid)

/-! ## Storage -/

namespace VectorClock

/-- The array is where the capacity says, with room for `capacity` elements, and no more are in
use. -/
structure Stored (v : VectorClock) : Prop where
  length_preallocated : v.preallocated.length = vcPreallocated
  fits : v.size ≤ v.capacity
  lt : v.capacity < 2 ^ 32
  array_eq : v.vc = .null ∧ v.capacity = 0 ∨ v.vc = .preallocated ∧ v.capacity ≤ vcPreallocated
    ∨ (∃ block, v.vc = .heap block ∧ block.length = v.capacity) ∧ vcPreallocated < v.capacity

@[simp] theorem array_withArray (h : v.vc ≠ .null) : (v.withArray l).array = l := by
  obtain ⟨capacity, size, vc, pre⟩ := v
  cases vc with
  | null => exact absurd rfl h
  | preallocated => rfl
  | heap block => rfl

@[simp] theorem size_withArray (v : VectorClock) (l : List VCElem) :
    (v.withArray l).size = v.size := by
  obtain ⟨capacity, size, vc, pre⟩ := v
  cases vc <;> rfl

@[simp] theorem capacity_withArray (v : VectorClock) (l : List VCElem) :
    (v.withArray l).capacity = v.capacity := by
  obtain ⟨capacity, size, vc, pre⟩ := v
  cases vc <;> rfl

theorem withArray_array (v : VectorClock) : v.withArray v.array = v := by
  obtain ⟨capacity, size, vc, pre⟩ := v
  cases vc <;> rfl

@[simp] theorem withArray_withArray (v : VectorClock) (l l' : List VCElem) :
    (v.withArray l).withArray l' = v.withArray l' := by
  obtain ⟨capacity, size, vc, pre⟩ := v
  cases vc <;> rfl

@[simp] theorem incSize_withArray (v : VectorClock) (l : List VCElem) :
    (v.withArray l).incSize = v.incSize.withArray l := by
  obtain ⟨capacity, size, vc, pre⟩ := v
  cases vc <;> rfl

@[simp] theorem array_incSize (v : VectorClock) : v.incSize.array = v.array := rfl

theorem array_split (he : v.elems = p ++ q) : v.array = p ++ (q ++ v.array.drop v.size) := by
  rw [← append_assoc, ← he, elems, take_append_drop]

theorem ne_null (hpos : 0 < v.array.length) : v.vc ≠ .null := by
  intro hnull
  rw [array, hnull] at hpos
  exact absurd hpos (lt_irrefl 0)

theorem elem_of_array (he : v.array = p ++ e :: q) : v.elem p.length = .ok e := by
  rw [elem, he]
  simp

/-- Reading an element in use. -/
theorem elem_eq (he : v.elems = p ++ e :: q) :
    v.elem p.length = .ok e := elem_of_array (array_split he)

namespace Stored

theorem capacity_le (h : v.Stored) : v.capacity ≤ v.array.length := by
  obtain ⟨capacity, size, vc, pre⟩ := v
  rcases h.array_eq with ⟨rfl, h0⟩ | ⟨rfl, h8⟩ | ⟨⟨block, rfl, hlen⟩, -⟩
  · exact h0.le.trans zero_le
  · exact h8.trans_eq h.length_preallocated.symm
  · exact hlen.ge

theorem size_le (h : v.Stored) : v.size ≤ v.array.length := h.fits.trans h.capacity_le

theorem length_elems (h : v.Stored) : v.elems.length = v.size := by
  rw [elems, length_take, min_eq_left h.size_le]

/-- Writing inside the block keeps the storage. -/
theorem withArray (h : v.Stored) (hl : l.length = v.array.length) : (v.withArray l).Stored := by
  obtain ⟨capacity, size, vc, pre⟩ := v
  obtain ⟨hpre, hfits, hlt, harr⟩ := h
  rcases harr with ⟨rfl, h0⟩ | ⟨rfl, h8⟩ | ⟨⟨block, rfl, hlen⟩, h8⟩
  · exact ⟨hpre, hfits, hlt, .inl ⟨rfl, h0⟩⟩
  · exact ⟨hl.trans hpre, hfits, hlt, .inr (.inl ⟨rfl, h8⟩)⟩
  · exact ⟨hpre, hfits, hlt, .inr (.inr ⟨⟨l, rfl, hl.trans hlen⟩, h8⟩)⟩

/-- One element more in use. -/
theorem incSize (h : v.Stored) (hlt : v.size < v.capacity) :
    v.incSize.Stored ∧ v.incSize.size = v.size + 1 := by
  have hsize : v.incSize.size = v.size + 1 := mod_eq_of_lt (by have := h.lt; omega)
  exact ⟨⟨h.length_preallocated, hsize.trans_le hlt, h.lt, h.array_eq⟩, hsize⟩

end Stored

/-- **A write inside the block.** -/
theorem write_eq (he : v.array = p ++ x :: q) (e : VCElem) :
    v.write p.length e = .ok (v.withArray (p ++ e :: q)) := by
  rw [write, he, if_pos (by simp), set_append_right _ _ le_rfl]
  simp

/-- Putting the first `n` elements of an array to use. -/
theorem elems_of_array (ha : v.array = l ++ r) (hs : v.size = l.length) : v.elems = l := by
  rw [elems, ha, hs, take_left]

end VectorClock

/-! ## `vc_reserve` -/

section

variable (junk : ℕ → VCElem) {block : List VCElem}

@[simp] theorem length_freshElems (n : ℕ) : (freshElems junk n).length = n := by
  simp [freshElems]

theorem length_reallocElems (h : block.length ≤ n) : (reallocElems junk block n).length = n := by
  rw [reallocElems, length_append, length_take, length_freshElems, min_eq_right h]
  omega

theorem take_reallocElems {k : ℕ} (h : block.length ≤ n)
    (hk : k ≤ block.length) : (reallocElems junk block n).take k = block.take k := by
  rw [reallocElems, take_of_length_le h, take_append_of_le_length hk]

/-- The array for a larger capacity begins with the elements in use. -/
theorem grown_spec (h : v.Stored) (hn : v.capacity < n) (hlt : n < 2 ^ 32) :
    ∃ vc, v.grown junk n = .ok vc
      ∧ (⟨n, v.size, vc, v.preallocated⟩ : VectorClock).Stored
      ∧ (⟨n, v.size, vc, v.preallocated⟩ : VectorClock).elems = v.elems := by
  obtain ⟨capacity, size, vc, pre⟩ := v
  obtain ⟨hpre, hfits, hcap, harr⟩ := h
  simp only at hpre hfits hcap hn harr ⊢
  have hfit : size ≤ n := by omega
  rcases harr with ⟨rfl, rfl⟩ | ⟨rfl, h8⟩ | ⟨⟨block, rfl, hlen⟩, h8⟩
  · obtain rfl : size = 0 := by omega
    by_cases hbig : n > vcPreallocated
    · refine ⟨.heap (freshElems junk n), ?_, ⟨hpre, hfit, hlt, ?_⟩, ?_⟩
      · simp [grown, hbig, vgAssert]
      · exact .inr (.inr ⟨⟨_, rfl, length_freshElems junk n⟩, hbig⟩)
      · simp [elems]
    · refine ⟨.preallocated, ?_, ⟨hpre, hfit, hlt, .inr (.inl ⟨rfl, not_lt.mp hbig⟩)⟩, ?_⟩
      · simp [grown, hbig, vgAssert, not_lt.mp hbig]
      · simp [elems]
  · have hle : (pre.take capacity).length ≤ n := by rw [length_take]; omega
    by_cases hbig : n > vcPreallocated
    · refine ⟨.heap (reallocElems junk (pre.take capacity) n), ?_, ⟨hpre, hfit, hlt, ?_⟩, ?_⟩
      · simp [grown, hbig, vgAssert, h8, not_lt.mpr h8]
      · exact .inr (.inr ⟨⟨_, rfl, length_reallocElems junk hle⟩, hbig⟩)
      · have hk : size ≤ (pre.take capacity).length := by rw [length_take]; omega
        exact (take_reallocElems junk hle hk).trans (by rw [take_take, min_eq_left hfits]; rfl)
    · refine ⟨.preallocated, ?_, ⟨hpre, hfit, hlt, .inr (.inl ⟨rfl, not_lt.mp hbig⟩)⟩, rfl⟩
      simp [grown, hbig, vgAssert, h8, not_lt.mpr h8, not_lt.mp hbig]
  · have hle : block.length ≤ n := by omega
    refine ⟨.heap (reallocElems junk block n), ?_, ⟨hpre, hfit, hlt, ?_⟩, ?_⟩
    · simp [grown, vgAssert, h8, array]
    · exact .inr (.inr ⟨⟨_, rfl, length_reallocElems junk hle⟩, h8.trans hn⟩)
    · have hk : size ≤ block.length := by omega
      exact take_reallocElems junk hle hk

/-- **`vc_reserve` keeps the elements** when it makes room. -/
theorem vcReserve_spec (h : v.Stored) (hn : v.capacity < n) (hlt : n < 2 ^ 32) :
    ∃ v', vcReserve junk v n = .ok v' ∧ v'.Stored ∧ v'.elems = v.elems ∧ v'.size = v.size
      ∧ v'.capacity = n := by
  have hcond : ∀ w : VectorClock, w.Stored →
      w.capacity > vcPreallocated ∨ w.vc = .null ∨ w.vc = .preallocated := fun w hw => by
    rcases hw.array_eq with ⟨h0, -⟩ | ⟨hp, -⟩ | ⟨-, h8⟩
    · exact .inr (.inl h0)
    · exact .inr (.inr hp)
    · exact .inl h8
  obtain ⟨vc, hok, hst, hel⟩ := grown_spec junk h hn hlt
  refine ⟨⟨n, v.size, vc, v.preallocated⟩, ?_, hst, hel, rfl, rfl⟩
  have hnull : vc ≠ .null := by
    rintro rfl
    rcases hst.array_eq with ⟨-, h0⟩ | ⟨hp, -⟩ | ⟨⟨_, hb, -⟩, -⟩
    · exact absurd h0 (by simp only; omega)
    · cases hp
    · cases hb
  rw [vcReserve, vgAssert_bind (hcond v h), resized, if_pos hn, hok]
  exact (vgAssert_bind (.inr hnull) _).trans (vgAssert_bind (hcond _ hst) _)

/-- Giving the array back. -/
theorem vcCleanup_spec (h : v.Stored) : ∃ v', vcCleanup junk v = .ok v' := by
  obtain ⟨capacity, size, vc, pre⟩ := v
  obtain ⟨hpre, hfits, hcap, harr⟩ := h
  simp only at hfits harr
  rcases harr with ⟨rfl, rfl⟩ | ⟨rfl, h8⟩ | ⟨⟨block, rfl, hlen⟩, h8⟩
  · exact ⟨_, by simp [vcCleanup, vcReserve, resized, vgAssert]; rfl⟩
  · exact ⟨_, by simp [vcCleanup, vcReserve, resized, vgAssert]; rfl⟩
  · exact ⟨_, by simp [vcCleanup, vcReserve, resized, vgAssert, h8]; rfl⟩

end

/-! ## The cursors -/

/-- **A cursor skips** the elements below a thread. -/
theorem skipBelow_spec (h : v.Stored) (t : DrdThreadId) (he : v.elems = p ++ q) :
    skipBelow v t (v.size - p.length) p.length
      = .ok (p ++ q.takeWhile fun e => e.threadid < t).length := by
  have hlen : v.size - p.length = q.length := by
    rw [← h.length_elems, he, length_append, Nat.add_sub_cancel_left]
  rw [hlen]
  clear hlen
  induction q generalizing p with
  | nil => simp [skipBelow]
  | cons e q ih =>
    rw [length_cons, skipBelow, elem_eq he, ok_bind]
    by_cases hlt : e.threadid < t
    · have hnext := ih (p := p ++ [e]) (he.trans (append_cons ..))
      rw [length_append, length_singleton] at hnext
      rw [if_pos hlt, hnext, takeWhile_cons_of_pos (by simpa using hlt), append_assoc,
        singleton_append]
    · rw [if_neg hlt, takeWhile_cons_of_neg (by simpa using hlt), append_nil]

/-- The elements around a cursor that has skipped. -/
theorem elems_skipped (t : DrdThreadId) (he : v.elems = p ++ q) :
    v.elems = (p ++ q.takeWhile fun e => e.threadid < t)
      ++ q.dropWhile fun e => e.threadid < t := by
  rw [append_assoc, takeWhile_append_dropWhile, he]

/-- A cursor is at the end iff nothing is left. -/
theorem size_le_iff (h : v.Stored) (he : v.elems = p ++ q) : v.size ≤ p.length ↔ q = [] := by
  rw [← h.length_elems, he, length_append, ← length_eq_zero_iff]
  omega

/-- Some element of the other clock is for the same thread, with no smaller count. -/
def Covered (bs : List VCElem) (a : VCElem) : Prop :=
  ∃ b ∈ bs, b.threadid = a.threadid ∧ a.count ≤ b.count

instance (bs : List VCElem) (a : VCElem) : Decidable (Covered bs a) :=
  inferInstanceAs (Decidable (∃ b ∈ bs, _))

/-- What is skipped covers nothing from there on. -/
theorem covered_dropWhile {t : DrdThreadId} {a : VCElem} (h : t ≤ a.threadid) :
    Covered (bs.dropWhile fun e => e.threadid < t) a ↔ Covered bs a :=
  exists_mem_dropWhile_iff fun _ hb => h.trans_eq hb.1.symm

/-- An element at the cursor is covered by what stands there, or not at all. -/
theorem covered_cons_iff {a b : VCElem} (hbs : Increasing threadid (b :: bs))
    (hle : a.threadid ≤ b.threadid) :
    Covered (b :: bs) a ↔ ¬ b.threadid > a.threadid ∧ ¬ a.count > b.count := by
  rw [Covered, exists_mem_cons_iff, not_lt, not_lt]
  constructor
  · rintro (⟨hkey, hcount⟩ | ⟨c, hc, hkey, -⟩)
    · exact ⟨hkey.le, hcount⟩
    · exact absurd hkey (hle.trans_lt (hbs.head_lt c hc)).ne'
  · rintro ⟨hge, hcount⟩
    exact .inl ⟨le_antisymm hge hle, hcount⟩

/-- **`vc_lte` compares element by element.** -/
theorem vcLteLoop_spec {vc1 vc2 : VectorClock} (h2 : vc2.Stored) (ha : vc1.elems = p ++ as)
    (hb : vc2.elems = r ++ bs) (has : Increasing threadid as)
    (hbs : Increasing threadid bs) :
    vcLteLoop vc1 vc2 as.length p.length r.length = .ok (decide (∀ a ∈ as, Covered bs a)) := by
  induction as generalizing p r bs with
  | nil => simp [vcLteLoop]
  | cons a as ih =>
    have hskip := elems_skipped a.threadid hb
    -- what was skipped is below `a`, and so below all that follows
    have hall : (∀ c ∈ a :: as, Covered bs c)
        ↔ ∀ c ∈ a :: as, Covered (bs.dropWhile fun e => e.threadid < a.threadid) c := by
      refine forall₂_congr fun c hc => (covered_dropWhile ?_).symm
      rcases mem_cons.mp hc with rfl | hc
      · exact le_rfl
      · exact (has.head_lt c hc).le
    have hbs' := hbs.dropWhile fun e => e.threadid < a.threadid
    rw [length_cons, vcLteLoop, elem_eq ha, ok_bind, skipBelow_spec h2 _ hb, ok_bind]
    simp only [hall]
    cases hd : bs.dropWhile fun e => e.threadid < a.threadid with
    | nil =>
      rw [hd] at hskip
      rw [if_pos ((size_le_iff h2 hskip).mpr rfl)]
      refine congrArg Except.ok (decide_eq_false fun h => ?_).symm
      obtain ⟨b, hb, -⟩ := h a mem_cons_self
      cases hb
    | cons b bs' =>
      rw [hd] at hskip hbs'
      have hcov := covered_cons_iff hbs' (not_lt_of_dropWhile hd)
      rw [if_neg (by rw [ge_iff_le, size_le_iff h2 hskip]; simp), elem_eq hskip, ok_bind]
      have hnext := ih (p := p ++ [a]) (ha.trans (append_cons ..)) hskip
        has.tail hbs'
      rw [length_append, length_singleton] at hnext
      simp only [forall_mem_cons, hcov, hnext]
      split_ifs with hgt hcount
      · simp [hgt]
      · simp [hcount]
      · simp [hgt, hcount]

/-- The first loop of `vc_combine` counts the threads that `rhs` has as well. -/
theorem sharedLoop_spec {result : VectorClock} (h2 : rhs.Stored) (ha : result.elems = p ++ as)
    (hb : rhs.elems = r ++ bs) (has : Increasing threadid as) (shared : ℕ) :
    sharedLoop result rhs as.length p.length r.length shared
      = .ok (shared + (align threadid as bs).countP Turn.isBoth) := by
  have hright : ∀ l : List VCElem, (l.map Turn.right).countP Turn.isBoth = 0 := by
    simp [Turn.isBoth]
  induction as generalizing p r bs shared with
  | nil => rw [align_nil_left, hright]; rfl
  | cons a as ih =>
    have hskip := elems_skipped a.threadid hb
    rw [length_cons, sharedLoop, elem_eq ha, ok_bind, skipBelow_spec h2 _ hb, ok_bind,
      align_cons_left, countP_append, hright, zero_add]
    cases hd : bs.dropWhile fun e => e.threadid < a.threadid with
    | nil =>
      rw [hd] at hskip
      rw [if_pos ((size_le_iff h2 hskip).mpr rfl)]
      simp [Turn.isBoth]
    | cons b bs' =>
      rw [hd] at hskip
      have hle : a.threadid ≤ b.threadid := not_lt_of_dropWhile hd
      rw [if_neg (by rw [ge_iff_le, size_le_iff h2 hskip]; simp), elem_eq hskip, ok_bind]
      have hnext := ih (p := p ++ [a]) (ha.trans (append_cons ..)) hskip has.tail
      rw [length_append, length_singleton] at hnext
      rw [hnext, align]
      by_cases heq : a.threadid = b.threadid
      · -- `b` is met once more, alone
        rw [align_cons_of_gt fun c hc => heq ▸ has.head_lt c hc, if_pos heq, if_neg heq.not_lt,
          if_neg heq.not_gt, countP_cons_of_neg Bool.false_ne_true, countP_cons_of_pos rfl,
          add_assoc, add_comm 1]
      · rw [if_neg heq, if_pos (lt_of_le_of_ne hle heq),
          countP_cons_of_neg Bool.false_ne_true]

/-- `vc_check` passes on sorted elements. -/
theorem vcCheck_spec (h : v.Stored) (hinc : Increasing threadid v.elems) :
    vcCheck v = .ok () := by
  have hloop : ∀ (n : ℕ) {p q : List VCElem} {e : VCElem}, v.elems = p ++ e :: q → q.length = n →
      vcCheckLoop v n (p.length + 1) = .ok () := by
    intro n
    induction n with
    | zero => exact fun _ _ => rfl
    | succ n ih =>
      intro p q e he hn
      obtain ⟨f, q', rfl⟩ := exists_cons_of_length_eq_add_one hn
      have he' : v.elems = (p ++ [e]) ++ f :: q' := by
        rw [he, append_assoc, singleton_append]
      have hf := elem_eq he'
      rw [length_append, length_singleton] at hf
      have hlt : e.threadid < f.threadid := by
        rw [he] at hinc
        exact (pairwise_cons.mp (pairwise_append.mp hinc).2.1).1 f mem_cons_self
      have hnext := ih he' (by simpa using hn)
      rw [length_append, length_singleton] at hnext
      rw [vcCheckLoop, Nat.add_sub_cancel, elem_eq he, ok_bind, hf, ok_bind, vgAssert_bind hlt, hnext]
  rw [vcCheck, vgAssert_bind h.fits]
  cases he : v.elems with
  | nil =>
    have hsize : v.size = 0 := by rw [← h.length_elems, he, length_nil]
    rw [hsize]
    rfl
  | cons e q =>
    have hsize : v.size - 1 = q.length := by
      rw [← h.length_elems, he, length_cons, Nat.add_sub_cancel]
    rw [hsize]
    exact hloop _ (p := []) he rfl

/-! ## `vc_combine` -/

/-- What becomes of the elements from the cursor on when `f` is brought in there. -/
def place (f : VCElem) : List VCElem → List VCElem
  | [] => [f]
  | e :: q =>
    if e.threadid > f.threadid then f :: e :: q
    else (if f.count > e.count then { e with count := f.count } else e) :: q

theorem length_place_le (f : VCElem) (q : List VCElem) :
    (place f q).length = q.length ∨ (place f q).length = q.length + 1 := by
  cases q with
  | nil => exact .inr rfl
  | cons e q =>
    rw [place]
    split_ifs
    · exact .inr rfl
    · exact .inl rfl
    · exact .inl rfl

/-- **The shifting loop** frees the slot at `i`. -/
theorem shiftUp_spec (ha : v.array = p ++ q ++ x :: r) :
    ∃ x', shiftUp v p.length q.length = .ok (v.withArray (p ++ x' :: (q ++ r))) := by
  induction q using List.reverseRecOn generalizing v x r with
  | nil =>
    refine ⟨x, ?_⟩
    rw [append_nil] at ha
    rw [nil_append, ← ha, withArray_array]
    rfl
  | append_singleton q y ih =>
    have hread : v.array = (p ++ q) ++ y :: x :: r := by rw [ha]; simp
    have hget := elem_of_array hread
    have hput := write_eq ha y
    have hnull : v.vc ≠ .null := ne_null (by rw [ha]; simp)
    obtain ⟨x', hx'⟩ := ih (v := v.withArray (p ++ (q ++ [y]) ++ y :: r)) (x := y) (r := y :: r)
      (by rw [array_withArray hnull]; simp)
    refine ⟨x', ?_⟩
    rw [length_append, length_singleton, shiftUp]
    rw [length_append] at hget
    rw [length_append, length_append, length_singleton, ← add_assoc] at hput
    rw [hget, ok_bind, hput, ok_bind, hx', withArray_withArray]
    simp

/-- Another clock has the elements `l`, in a block like that of `v`. -/
structure Becomes (v : VectorClock) (l : List VCElem) (v' : VectorClock) : Prop where
  stored : v'.Stored
  capacity : v'.capacity = v.capacity
  block : v'.array.length = v.array.length
  elems : v'.elems = l

theorem becomes_withArray (h : v.Stored) (hnull : v.vc ≠ .null) (hl : l.length = v.size)
    (hlen : (l ++ r).length = v.array.length) : Becomes v l (v.withArray (l ++ r)) where
  stored := h.withArray hlen
  capacity := capacity_withArray _ _
  block := by rw [array_withArray hnull, hlen]
  elems := elems_of_array (array_withArray hnull) (by rw [size_withArray, hl])

/-- An element is overwritten. -/
theorem write_spec (h : v.Stored) (he : v.elems = p ++ e :: q) (e' : VCElem) :
    ∃ v', v.write p.length e' = .ok v' ∧ Becomes v (p ++ e' :: q) v' := by
  have hsize := h.length_elems
  have harr := array_split he
  rw [cons_append] at harr
  refine ⟨_, write_eq harr e', ?_⟩
  rw [← cons_append, ← append_assoc]
  refine becomes_withArray h (ne_null (by rw [harr]; simp)) ?_ ?_
  · rw [← hsize, he]
    simp
  · conv_rhs => rw [harr]
    simp

/-- An element is put into the slot that the shifting loop frees. -/
theorem insert_spec (h : v.Stored) (he : v.elems = p ++ q) (hlt : v.size < v.capacity)
    (f : VCElem) : ∃ v', (shiftUp v p.length q.length >>= fun v => v.incSize.write p.length f)
        = .ok v' ∧ Becomes v (p ++ f :: q) v' := by
  have hcap := h.capacity_le
  have hsize := h.length_elems
  rw [he] at hsize
  -- the slot behind the elements in use
  obtain ⟨x, r, hx⟩ := exists_cons_of_length_pos (l := v.array.drop v.size)
    (by rw [length_drop]; omega)
  have harr := array_split he
  rw [hx, ← append_assoc] at harr
  have hnull : v.vc ≠ .null := ne_null (by rw [harr]; simp)
  obtain ⟨x', hshift⟩ := shiftUp_spec harr
  obtain ⟨hst, hsize'⟩ := h.incSize hlt
  have hput := write_eq (v := v.incSize.withArray (p ++ x' :: (q ++ r))) (array_withArray hnull) f
  have hnew := becomes_withArray (l := p ++ f :: q) (r := r) hst hnull
    (by rw [hsize', ← hsize]; simp [add_assoc])
    (by rw [array_incSize, harr]; simp [add_assoc])
  rw [append_assoc, cons_append] at hnew
  refine ⟨_, ?_, hnew.stored, hnew.capacity, hnew.block, hnew.elems⟩
  rw [hshift, ok_bind, incSize_withArray, hput, withArray_withArray]

/-- **One element is brought in** where it belongs. -/
theorem combineOne_spec (h : v.Stored) (he : v.elems = p ++ q)
    (hq : ∀ e ∈ q.head?, f.threadid ≤ e.threadid) (hroom : (p ++ place f q).length ≤ v.capacity) :
    ∃ v', combineOne v p.length f = .ok v' ∧ Becomes v (p ++ place f q) v' := by
  have hsize := h.length_elems
  rw [he, length_append] at hsize
  rw [length_append] at hroom
  cases q with
  | nil =>
    rw [place, length_singleton] at hroom
    rw [length_nil] at hsize
    rw [combineOne, if_pos (by omega)]
    exact insert_spec h he (by omega) f
  | cons e q =>
    have hlen : v.size - p.length = (e :: q).length := by omega
    rw [place] at hroom ⊢
    rw [combineOne, if_neg (by rw [length_cons] at hsize; omega), elem_eq he, ok_bind]
    by_cases hgt : e.threadid > f.threadid
    · rw [if_pos hgt, length_cons] at hroom
      rw [if_pos hgt, if_pos hgt, hlen]
      exact insert_spec h he (by omega) f
    · have heq : e.threadid = f.threadid := le_antisymm (not_lt.mp hgt) (hq e rfl)
      rw [if_neg hgt, if_neg hgt, vgAssert_bind heq]
      split_ifs
      · exact write_spec h he _
      · exact ⟨v, rfl, h, rfl, rfl, he⟩

/-- The element that is made of what is met. -/
def combineTurn : Turn VCElem → VCElem
  | .left a => a
  | .right b => b
  | .both a b => if b.count > a.count then { a with count := b.count } else a

/-- An element that is placed is met from the left afterwards. -/
theorem map_align_place {b : VCElem} (hlt : ∀ c ∈ bs, b.threadid < c.threadid)
    (hq : ∀ e ∈ q.head?, b.threadid ≤ e.threadid) :
    (align threadid (place b q) bs).map combineTurn
      = (align threadid q (b :: bs)).map combineTurn := by
  cases q with
  | nil => rw [place, align_cons_of_lt hlt, align]; rfl
  | cons a q =>
    have hge : b.threadid ≤ a.threadid := hq a rfl
    rw [place, align, if_neg (not_lt.mpr hge)]
    by_cases hgt : a.threadid > b.threadid
    · rw [if_pos hgt, if_pos hgt, align_cons_of_lt hlt]
      rfl
    · have heq : a.threadid = b.threadid := le_antisymm (not_lt.mp hgt) hge
      rw [if_neg hgt, if_neg hgt, align_cons_of_lt]
      · rfl
      · intro c hc
        split_ifs
        · exact heq ▸ hlt c hc
        · exact heq ▸ hlt c hc

/-- The elements behind a cursor that has skipped to `b`, as they are met. -/
theorem map_align_skip (b : VCElem) (q bs : List VCElem) :
    (align threadid q (b :: bs)).map combineTurn
      = (q.takeWhile fun e => e.threadid < b.threadid)
        ++ (align threadid (q.dropWhile fun e => e.threadid < b.threadid)
            (b :: bs)).map combineTurn := by
  rw [align_cons_right, map_append, map_map]
  congr 1
  exact map_id' _

theorem le_head_dropWhile (b : VCElem) (q : List VCElem) :
    ∀ e ∈ (q.dropWhile fun e => e.threadid < b.threadid).head?, b.threadid ≤ e.threadid := by
  intro e he
  obtain ⟨q', hq'⟩ := head?_eq_some_iff.mp he
  exact not_lt_of_dropWhile hq'

/-- An element that would not fit: the write goes past the end of the block. -/
theorem combineOne_overflow (h : v.Stored) (hfull : v.size = v.array.length) (he : v.elems = p ++ q)
    (hgrow : (place f q).length = q.length + 1) : combineOne v p.length f = .error .wildAccess := by
  have hsize : v.size = p.length + q.length := by
    rw [← h.length_elems, he, length_append]
  cases q with
  | nil =>
    rw [length_nil] at hsize
    rw [combineOne, if_pos (by omega), write, if_neg (by rw [array_incSize]; omega)]
  | cons e q =>
    have hgt : e.threadid > f.threadid := by
      by_contra hnot
      rw [place, if_neg hnot, length_cons, length_cons] at hgrow
      omega
    obtain ⟨q', y, hy⟩ := eq_nil_or_concat (e :: q) |>.resolve_left (by simp)
    have hlast : v.elem (p.length + q.length) = .ok y := by
      have hq' : q'.length = q.length := by
        have := congrArg List.length hy
        simpa using this.symm
      have hget := elem_eq (v := v) (p := p ++ q') (q := []) (e := y) (by rw [he, hy]; simp)
      rw [length_append, hq'] at hget
      exact hget
    have hlen : v.size - p.length = q.length + 1 := by rw [hsize, length_cons]; omega
    rw [combineOne, if_neg (by rw [hsize, length_cons]; omega), elem_eq he, ok_bind, if_pos hgt,
      hlen, shiftUp, hlast, ok_bind, write, if_neg (by rw [← hfull, hsize, length_cons]; omega)]
    rfl

/-- **The merging loop** leaves the maximum of what it meets, if there is room for it; it runs over
the end of a block that is too short. -/
theorem combineLoop_spec (h : v.Stored) (hb : rhs.elems = r ++ bs)
    (he : v.elems = p ++ q) (hbs : Increasing threadid bs) :
    ((p ++ (align threadid q bs).map combineTurn).length ≤ v.capacity →
      ∃ v', combineLoop rhs bs.length r.length v p.length = .ok v'
        ∧ Becomes v (p ++ (align threadid q bs).map combineTurn) v')
    ∧ (v.capacity = v.array.length →
      v.capacity < (p ++ (align threadid q bs).map combineTurn).length →
      combineLoop rhs bs.length r.length v p.length = .error .wildAccess) := by
  induction bs generalizing v p q r with
  | nil =>
    have hmap : (align threadid q []).map combineTurn = q := by
      rw [align_nil_right, map_map]
      exact map_id' _
    rw [hmap, ← he, h.length_elems]
    exact ⟨fun _ => ⟨v, rfl, h, rfl, rfl, rfl⟩, fun _ hlt => absurd h.fits (not_le.mpr hlt)⟩
  | cons b bs ih =>
    have hskip := elems_skipped b.threadid he
    have hhead := le_head_dropWhile b q
    rw [map_align_skip, ← append_assoc, ← map_align_place hbs.head_lt hhead, length_cons,
      combineLoop, elem_eq hb, ok_bind, skipBelow_spec h _ he, ok_bind]
    by_cases hroom : ((p ++ q.takeWhile fun e => e.threadid < b.threadid)
        ++ place b (q.dropWhile fun e => e.threadid < b.threadid)).length ≤ v.capacity
    · obtain ⟨v₁, hone, h₁⟩ := combineOne_spec h hskip hhead hroom
      have hrun := ih h₁.stored (r := r ++ [b]) (hb.trans (append_cons ..))
        h₁.elems hbs.tail
      rw [show (r ++ [b]).length = r.length + 1 from length_append, h₁.capacity, h₁.block] at hrun
      rw [hone, ok_bind]
      refine ⟨fun hfits => ?_, hrun.2⟩
      obtain ⟨v₂, hok, h₂⟩ := hrun.1 hfits
      exact ⟨v₂, hok, h₂.stored, h₂.capacity.trans h₁.capacity, h₂.block.trans h₁.block, h₂.elems⟩
    · -- what is placed now would still be there at the end
      have hmet := length_le_length_align threadid
        (place b (q.dropWhile fun e => e.threadid < b.threadid)) bs
      have hgrow := length_place_le b (q.dropWhile fun e => e.threadid < b.threadid)
      have hfits := h.fits
      have hsize := h.length_elems
      rw [hskip] at hsize
      rw [length_append] at hroom hsize
      refine ⟨fun hall => ?_, fun hblock _ => ?_⟩
      · rw [length_append, length_map] at hall
        omega
      · rw [combineOne_overflow h (by omega) hskip (by omega)]
        rfl

/-! ## Valid clocks -/

namespace VectorClock

/-- The count of a thread. -/
def count (v : VectorClock) (t : DrdThreadId) : ℕ :=
  index VCElem.threadid (fun e => e.count.val) v.elems t

/-- A vector clock: sorted strictly by thread, with positive counts, and stored as it should be. -/
structure Valid (v : VectorClock) : Prop where
  stored : v.Stored
  increasing : Increasing VCElem.threadid v.elems
  pos : ∀ e ∈ v.elems, e.count.val ≠ 0

theorem Valid.ext_count {a b : VectorClock} (ha : a.Valid) (hb : b.Valid)
    (h : ∀ t, a.count t = b.count t) : a.elems = b.elems := by
  refine eq_of_index_eq ha.increasing hb.increasing ha.pos hb.pos ?_ h
  rintro ⟨t, n⟩ ⟨u, m⟩ htu hnm
  rw [show t = u from htu, show n = m from Fin.ext hnm]

end VectorClock

/-- **`vc_lte` is the pointwise order.** -/
theorem vcLte_spec {a b : VectorClock} (ha : a.Valid) (hb : b.Valid) :
    ∃ r, vcLte a b = .ok r ∧ (r = true ↔ ∀ t, a.count t ≤ b.count t) := by
  have hloop := vcLteLoop_spec hb.stored (p := []) (r := []) (nil_append a.elems).symm
    (nil_append b.elems).symm ha.increasing hb.increasing
  rw [ha.stored.length_elems] at hloop
  refine ⟨_, hloop, ?_⟩
  rw [decide_eq_true_iff]
  exact (index_le_iff ha.increasing hb.increasing ha.pos).symm

theorem vcLte_eq_true_iff {a b : VectorClock} (ha : a.Valid) (hb : b.Valid) :
    vcLte a b = .ok true ↔ ∀ t, a.count t ≤ b.count t := by
  obtain ⟨r, hr, hiff⟩ := vcLte_spec ha hb
  rw [hr, ← hiff]
  exact ⟨fun h => Except.ok.inj h, fun h => h ▸ rfl⟩

/-! ### Combining -/

@[simp] theorem threadid_combineTurn (x : Turn VCElem) :
    (combineTurn x).threadid = x.keyBy threadid := by
  cases x with
  | left a | right b => rfl
  | both a b =>
    rw [combineTurn]
    split_ifs <;> rfl

theorem count_combineTurn (x : Turn VCElem) :
    (combineTurn x).count.val = valBy (fun e => e.count.val) max x := by
  cases x with
  | left a | right b => rfl
  | both a b =>
    rw [combineTurn, valBy]
    split_ifs with h
    · exact (max_eq_right (Fin.le_def.mp h.le)).symm
    · exact (max_eq_left (Fin.le_def.mp (not_lt.mp h))).symm

section

variable (junk : ℕ → VCElem) {a b : VectorClock}

/-- What combining counts and checks before it merges. -/
theorem sharedLoop_valid (ha : a.Valid) (hb : b.Valid) :
    ∃ shared, sharedLoop a b a.size 0 0 0 = .ok shared
      ∧ a.size + b.size - shared = (align threadid a.elems b.elems).length := by
  have hloop := sharedLoop_spec hb.stored (p := []) (r := []) (nil_append a.elems).symm
    (nil_append b.elems).symm ha.increasing 0
  have hlen := length_add_countP_align threadid a.elems b.elems
  rw [ha.stored.length_elems] at hloop
  rw [ha.stored.length_elems, hb.stored.length_elems] at hlen
  refine ⟨_, hloop, ?_⟩
  rw [zero_add]
  omega

/-- The combination of two clocks that do not hold all thread ids between them fits. -/
theorem length_align_lt (ha : a.Valid) (hb : b.Valid) (hfree : ∃ t, a.count t = 0 ∧ b.count t = 0) :
    (align threadid a.elems b.elems).length < 2 ^ 32 := by
  obtain ⟨t, hat, hbt⟩ := hfree
  have hna := (index_eq_zero_iff ha.increasing ha.pos).mp hat
  have hnb := (index_eq_zero_iff hb.increasing hb.pos).mp hbt
  have hnot : t ∉ (align threadid a.elems b.elems).map (Turn.keyBy threadid) := by
    intro ht
    obtain ⟨x, hx, rfl⟩ := mem_map.mp ht
    have hmeets := (mem_align ha.increasing hb.increasing x).mp hx
    cases x with
    | left e | both e _ => exact hna e hmeets.1 rfl
    | right e => exact hnb e hmeets.1 rfl
  have hnodup : ((align threadid a.elems b.elems).map
      (Turn.keyBy threadid)).Nodup :=
    pairwise_map.mpr ((pairwise_align ha.increasing hb.increasing).imp fun h => h.ne)
  have hcard := (nodup_cons.mpr ⟨hnot, hnodup⟩).length_le_card
  rw [length_cons, length_map, Fintype.card_fin] at hcard
  exact hcard

theorem ensureRoom_spec (h : a.Stored) (hlt : n < 2 ^ 32) :
    ∃ a', ensureRoom junk a n = .ok a' ∧ a'.Stored ∧ a'.elems = a.elems ∧ n ≤ a'.capacity := by
  rw [ensureRoom]
  split_ifs with hn
  · obtain ⟨a', hok, hst, hel, -, hcap⟩ := vcReserve_spec junk h hn hlt
    exact ⟨a', hok, hst, hel, hcap.ge⟩
  · exact ⟨a, rfl, h, rfl, not_lt.mp hn⟩

/-- **`vc_combine` is the pointwise maximum.** -/
theorem vcCombine_spec (ha : a.Valid) (hb : b.Valid) (hfree : ∃ t, a.count t = 0 ∧ b.count t = 0) :
    ∃ c, vcCombine junk a b = .ok c ∧ c.Valid ∧ ∀ t, c.count t = max (a.count t) (b.count t) := by
  have hlt := length_align_lt ha hb hfree
  obtain ⟨shared, hshared, hsize⟩ := sharedLoop_valid ha hb
  obtain ⟨a', hroom, hst, hel, hcap⟩ := ensureRoom_spec junk ha.stored hlt
  obtain ⟨c, hrun, hc, -, -, hce⟩ := (combineLoop_spec hst (p := []) (r := [])
    (nil_append b.elems).symm (hel.trans (nil_append a.elems).symm) hb.increasing).1
    (by rw [nil_append, length_map]; exact hcap)
  rw [nil_append] at hce
  have hinc : Increasing threadid c.elems := by
    rw [hce]
    exact increasing_map_align ha.increasing hb.increasing fun x _ => threadid_combineTurn x
  have hcsize : c.size = (align threadid a.elems b.elems).length := by
    rw [← hc.length_elems, hce, length_map]
  refine ⟨c, ?_, ⟨hc, hinc, ?_⟩, fun t => ?_⟩
  · rw [hb.stored.length_elems, length_nil] at hrun
    rw [vcCombine, hshared, ok_bind, vcCheck_spec ha.stored ha.increasing, ok_bind, hsize,
      mod_eq_of_lt hlt]
    dsimp only
    rw [hroom, ok_bind, vcCheck_spec hst (hel.symm ▸ ha.increasing), ok_bind,
      hrun, ok_bind, vcCheck_spec hc hinc, ok_bind, vgAssert_bind hcsize]
    rfl
  · rw [hce]
    exact pos_map_align ha.increasing hb.increasing (fun x _ => count_combineTurn x)
      le_max_left ha.pos hb.pos
  · rw [VectorClock.count, hce]
    exact index_align ha.increasing hb.increasing (fun x _ => threadid_combineTurn x)
      (fun x _ => count_combineTurn x) max_zero zero_max t

/-- Two clocks in a full block that hold all thread ids between them: the size wraps to zero, no
room is made, and the merge writes past the block. -/
theorem vcCombine_overflow (ha : a.Valid) (hb : b.Valid) (hblock : a.capacity = a.array.length)
    (hall : (align threadid a.elems b.elems).length = 2 ^ 32) :
    vcCombine junk a b = .error .wildAccess := by
  obtain ⟨shared, hshared, hsize⟩ := sharedLoop_valid ha hb
  have hlt := ha.stored.lt
  have hrun := (combineLoop_spec ha.stored (p := []) (r := [])
    (nil_append b.elems).symm (nil_append a.elems).symm hb.increasing).2 hblock
    (by rw [nil_append, length_map, hall]; exact hlt)
  rw [hb.stored.length_elems, length_nil] at hrun
  have hroom : ensureRoom junk a 0 = .ok a := if_neg (not_lt_zero _)
  rw [vcCombine, hshared, ok_bind, vcCheck_spec ha.stored ha.increasing, ok_bind, hsize, hall,
    mod_self]
  dsimp only
  rw [hroom, ok_bind, vcCheck_spec ha.stored ha.increasing, ok_bind, hrun]
  rfl

end

/-! ### Incrementing -/

section

variable (junk : ℕ → VCElem) {a c : VectorClock} {t : DrdThreadId}

/-- The loop passes the elements of other threads. -/
theorem incrementLoop_skip (he : a.elems = p ++ (q ++ r)) (hq : ∀ e ∈ q, e.threadid ≠ t) :
    incrementLoop a t (q ++ r).length p.length
      = incrementLoop a t r.length (p ++ q).length := by
  induction q generalizing p with
  | nil => rw [append_nil]; rfl
  | cons e q ih =>
    obtain ⟨hne, hq⟩ := forall_mem_cons.mp hq
    have hnext : incrementLoop a t (q ++ r).length (p.length + 1)
        = incrementLoop a t r.length (p ++ e :: q).length := by
      simpa using ih (p := p ++ [e]) (by rw [he]; simp) hq
    rw [cons_append, length_cons, incrementLoop, elem_eq he, ok_bind, if_neg hne, hnext]

/-- A thread that has a count has one element. -/
theorem exists_split (ha : a.Valid) (h : a.count t ≠ 0) :
    ∃ p e q, a.elems = p ++ e :: q ∧ e.threadid = t ∧ a.count t = e.count.val
      ∧ ∀ f ∈ p, f.threadid ≠ t := by
  rcases index_cases ha.increasing (fun e => e.count.val) t with ⟨e, he, hkey, hval⟩ | ⟨-, hzero⟩
  · obtain ⟨p, q, hpq⟩ := append_of_mem he
    refine ⟨p, e, q, hpq, hkey, hval, fun f hf => ?_⟩
    have hinc := ha.increasing
    rw [hpq] at hinc
    exact hkey ▸ ((pairwise_append.mp hinc).2.2 f hf e mem_cons_self).ne
  · exact absurd hzero h

/-- The loop at the thread's own element. -/
theorem incrementLoop_found (ha : a.Valid) (he : a.elems = p ++ e :: q) (hkey : e.threadid = t)
    (hp : ∀ f ∈ p, f.threadid ≠ t)
    (hc : a.write p.length { e with count := e.count + 1 } = .ok c) :
    incrementLoop a t a.size 0 = (do
      vgAssert (e.count < e.count + 1)
      return some c) := by
  have hskip := incrementLoop_skip (p := []) (by rw [he, nil_append]) hp
  rw [← he, ha.stored.length_elems, length_nil, nil_append] at hskip
  rw [hskip, length_cons, incrementLoop, elem_eq he, ok_bind, if_pos hkey, hc, ok_bind]

/-- One element with another count. -/
theorem valid_of_becomes {e' : VCElem} (ha : a.Valid) (he : a.elems = p ++ e :: q)
    (hc : Becomes a (p ++ e' :: q) c) (hkey : e'.threadid = e.threadid)
    (hpos : e'.count.val ≠ 0) : c.Valid := by
  refine ⟨hc.stored, ?_, ?_⟩
  · have hinc := ha.increasing
    rw [he, Increasing, ← pairwise_map] at hinc
    rw [hc.elems, Increasing, ← pairwise_map]
    simpa [hkey] using hinc
  · have hold := ha.pos
    rw [he, forall_mem_append, forall_mem_cons] at hold
    rw [hc.elems, forall_mem_append, forall_mem_cons]
    exact ⟨hold.1, hpos, hold.2.2⟩

/-- The clock of one tick that `vc_increment` combines with. -/
theorem vcInit_single (t : DrdThreadId) :
    ∃ vc2, vcInit junk ⟨0, 0, .null, freshElems junk vcPreallocated⟩ (some [⟨t, 1⟩]) 1 = .ok vc2
      ∧ vc2.Valid ∧ vc2.elems = [⟨t, 1⟩] := by
  have hst : (⟨0, 0, .null, freshElems junk vcPreallocated⟩ : VectorClock).Stored :=
    ⟨length_freshElems junk _, le_rfl, by norm_num, .inl ⟨rfl, rfl⟩⟩
  obtain ⟨v, hok, hv, -, hsize, hcap⟩ := vcReserve_spec junk hst (n := 1) zero_lt_one (by norm_num)
  have hlen : 1 ≤ v.array.length := hcap.ge.trans hv.capacity_le
  have hnull : v.vc ≠ .null := ne_null hlen
  have hput := hv.withArray (l := [⟨t, 1⟩] ++ v.array.drop 1) (by simp; omega)
  have hel : ({ v.withArray ([⟨t, 1⟩] ++ v.array.drop 1) with size := 1 } : VectorClock).elems
      = [⟨t, 1⟩] := by
    refine elems_of_array (l := [⟨t, 1⟩]) (r := v.array.drop 1) ?_ rfl
    exact array_withArray hnull
  refine ⟨{ v.withArray ([⟨t, 1⟩] ++ v.array.drop 1) with size := 1 }, ?_, ⟨?_, ?_, ?_⟩, hel⟩
  · rw [vcInit, hok, ok_bind, vgAssert_bind (.inr hnull)]
    dsimp only
    rw [copyIn, if_pos (by simpa using hlen), ok_bind]
    rfl
  · refine ⟨hput.length_preallocated, ?_, hput.lt, hput.array_eq⟩
    rw [capacity_withArray, hcap]
  · rw [hel]
    exact pairwise_singleton _ _
  · rw [hel]
    exact forall_mem_singleton.mpr (show ((1 : Fin (2 ^ 32)) : ℕ) ≠ 0 by decide)

/-- The counts of a clock with one element. -/
theorem count_of_single (h : c.elems = [⟨t, 1⟩]) (u : DrdThreadId) :
    c.count u = if u = t then 1 else 0 := by
  rw [VectorClock.count, h, index]
  by_cases hut : u = t
  · rw [if_pos hut, find?_cons_of_pos (by simpa using hut.symm)]
    rfl
  · rw [if_neg hut, find?_cons_of_neg (by simpa using Ne.symm hut)]
    rfl

/-- **`vc_increment` adds one tick.** -/
theorem vcIncrement_spec (ha : a.Valid) (hmax : a.count t < 2 ^ 32 - 1)
    (hfree : a.count t ≠ 0 ∨ ∃ u, u ≠ t ∧ a.count u = 0) :
    ∃ c, vcIncrement junk a t = .ok c ∧ c.Valid
      ∧ ∀ u, c.count u = a.count u + if u = t then 1 else 0 := by
  by_cases hzero : a.count t = 0
  -- the thread is new: a clock with one element is combined with
  · obtain ⟨u, hut, hau⟩ := hfree.resolve_left (not_not.mpr hzero)
    have hnot := (index_eq_zero_iff ha.increasing ha.pos).mp hzero
    have hloop := incrementLoop_skip (a := a) (t := t) (p := []) (q := a.elems) (r := [])
      (by simp) hnot
    rw [append_nil, nil_append, ha.stored.length_elems] at hloop
    have hnone : incrementLoop a t a.size 0 = .ok none := hloop
    obtain ⟨vc2, hinit, hv2, hel2⟩ := vcInit_single junk t
    obtain ⟨c, hc, hcv, hcount⟩ := vcCombine_spec junk ha hv2
      ⟨u, hau, by rw [count_of_single hel2, if_neg hut]⟩
    obtain ⟨vc2', hclean⟩ := vcCleanup_spec junk hv2.stored
    refine ⟨c, ?_, hcv, fun w => ?_⟩
    · rw [vcIncrement, hnone, ok_bind]
      dsimp only
      rw [hinit, ok_bind, hc, ok_bind, hclean]
      rfl
    · rw [hcount w, count_of_single hel2]
      split_ifs with hw
      · rw [hw, hzero]
        rfl
      · rw [max_zero, add_zero]
  · obtain ⟨p, e, q, he, hkey, hval, hp⟩ := exists_split ha hzero
    have hadd : (e.count + 1).val = e.count.val + 1 := by
      rw [Fin.val_add]
      exact mod_eq_of_lt (by rw [hval] at hmax; exact add_lt_of_lt_sub hmax)
    have hlt : e.count < e.count + 1 := Fin.lt_def.mpr (by omega)
    obtain ⟨c, hwrite, hc⟩ := write_spec ha.stored he { e with count := e.count + 1 }
    refine ⟨c, ?_, valid_of_becomes ha he hc rfl (by simp only [hadd]; omega), fun u => ?_⟩
    · rw [vcIncrement, incrementLoop_found ha he hkey hp hwrite, vgAssert_bind hlt]
      rfl
    · have hrep := index_replace (fun e => e.count.val) (he ▸ ha.increasing)
        (show ({ e with count := e.count + 1 } : VCElem).threadid = e.threadid from rfl) u
      rw [← hc.elems, ← he] at hrep
      rw [VectorClock.count, hrep, hkey]
      split_ifs with hu
      · rw [hu, hval, hadd]
      · rfl

/-- The count that cannot be incremented: the overflow check stops the tool. -/
theorem vcIncrement_max (ha : a.Valid) (hmax : a.count t = 2 ^ 32 - 1) :
    vcIncrement junk a t = .error .assertion := by
  obtain ⟨p, e, q, he, hkey, hval, hp⟩ := exists_split ha (by rw [hmax]; norm_num)
  have hlast : e.count = Fin.last (2 ^ 32 - 1) := Fin.ext (hval.symm.trans hmax)
  have hnot : ¬ e.count < e.count + 1 := by rw [hlast]; decide
  obtain ⟨c, hwrite, -⟩ := write_spec ha.stored he { e with count := e.count + 1 }
  rw [vcIncrement, incrementLoop_found ha he hkey hp hwrite, vgAssert, if_neg hnot]
  rfl

end

/-! ## The lattice -/

/-- **The algebra of vector clocks.**  `vc_lte` is the pointwise order, a partial order on the
sorted arrays; `vc_combine` is the pointwise maximum and so the least upper bound, as long as some
thread id is in neither clock; `vc_increment` adds one to the count of one thread, unless that count
is the largest there is.  Every result is valid again. -/
theorem clock_algebra (junk : ℕ → VCElem) {a b : VectorClock} (ha : a.Valid) (hb : b.Valid) :
    (∃ r, vcLte a b = .ok r ∧ (r = true ↔ ∀ t, a.count t ≤ b.count t))
    ∧ vcLte a a = .ok true
    ∧ (vcLte a b = .ok true → vcLte b a = .ok true → a.elems = b.elems)
    ∧ (∀ d : VectorClock, d.Valid → vcLte a b = .ok true → vcLte b d = .ok true →
        vcLte a d = .ok true)
    ∧ ((∃ t, a.count t = 0 ∧ b.count t = 0) → ∃ c, vcCombine junk a b = .ok c ∧ c.Valid
        ∧ (∀ t, c.count t = max (a.count t) (b.count t))
        ∧ vcLte a c = .ok true ∧ vcLte b c = .ok true
        ∧ ∀ d : VectorClock, d.Valid → vcLte a d = .ok true → vcLte b d = .ok true →
            vcLte c d = .ok true)
    ∧ ∀ t, a.count t < 2 ^ 32 - 1 → (a.count t ≠ 0 ∨ ∃ u, u ≠ t ∧ a.count u = 0) →
        ∃ c, vcIncrement junk a t = .ok c ∧ c.Valid
          ∧ ∀ u, c.count u = a.count u + if u = t then 1 else 0 := by
  refine ⟨vcLte_spec ha hb, (vcLte_eq_true_iff ha ha).mpr fun _ => le_rfl, fun hab hba => ?_,
    fun d hd hab hbd => ?_, fun hfree => ?_, fun t hmax hfree => vcIncrement_spec junk ha hmax hfree⟩
  · rw [vcLte_eq_true_iff ha hb] at hab
    rw [vcLte_eq_true_iff hb ha] at hba
    exact ha.ext_count hb fun t => le_antisymm (hab t) (hba t)
  · rw [vcLte_eq_true_iff ha hb] at hab
    rw [vcLte_eq_true_iff hb hd] at hbd
    exact (vcLte_eq_true_iff ha hd).mpr fun t => (hab t).trans (hbd t)
  · obtain ⟨c, hc, hcv, hmax⟩ := vcCombine_spec junk ha hb hfree
    refine ⟨c, hc, hcv, hmax, (vcLte_eq_true_iff ha hcv).mpr fun t => ?_,
      (vcLte_eq_true_iff hb hcv).mpr fun t => ?_, fun d hd had hbd => ?_⟩
    · exact hmax t ▸ le_max_left _ _
    · exact hmax t ▸ le_max_right _ _
    · rw [vcLte_eq_true_iff ha hd] at had
      rw [vcLte_eq_true_iff hb hd] at hbd
      exact (vcLte_eq_true_iff hcv hd).mpr fun t => hmax t ▸ max_le (had t) (hbd t)

/-- A clock in the preallocated array. -/
def smallClock (l : List VCElem) : VectorClock :=
  ⟨l.length, l.length, .preallocated, l ++ List.replicate (vcPreallocated - l.length) ⟨0, 0⟩⟩

theorem valid_smallClock (hlen : l.length ≤ vcPreallocated) (hinc : Increasing threadid l)
    (hpos : ∀ e ∈ l, e.count.val ≠ 0) : (smallClock l).Valid := by
  have hel : (smallClock l).elems = l := elems_of_array rfl rfl
  refine ⟨⟨?_, le_rfl, ?_, .inr (.inl ⟨rfl, hlen⟩)⟩, hel.symm ▸ hinc, hel.symm ▸ hpos⟩
  · rw [smallClock, length_append, length_replicate]
    omega
  · exact hlen.trans_lt (by norm_num [vcPreallocated])

/-- The algebra at two clocks: `{1: 2}` and `{2: 5}` are below their combination. -/
theorem clock_algebra_pair : ∃ c, vcCombine (fun _ => ⟨0, 0⟩) (smallClock [⟨1, 2⟩])
      (smallClock [⟨2, 5⟩]) = .ok c
    ∧ vcLte (smallClock [⟨1, 2⟩]) c = .ok true ∧ vcLte (smallClock [⟨2, 5⟩]) c = .ok true := by
  obtain ⟨-, -, -, -, hcombine, -⟩ := clock_algebra (fun _ => ⟨0, 0⟩)
    (valid_smallClock (l := [⟨1, 2⟩]) (by decide) (pairwise_singleton _ _) (by decide))
    (valid_smallClock (l := [⟨2, 5⟩]) (by decide) (pairwise_singleton _ _) (by decide))
  obtain ⟨c, hc, -, -, hac, hbc, -⟩ := hcombine ⟨3, by decide, by decide⟩
  exact ⟨c, hc, hac, hbc⟩

/-- All thread ids but `DRD_INVALID_THREADID`. -/
theorem exists_allThreads : ∃ l : List VCElem, l.length = 2 ^ 32 - 1
    ∧ Increasing threadid l ∧ ∀ e ∈ l, e.count.val ≠ 0 ∧ e.threadid.val ≠ 0 := by
  refine ⟨(List.finRange (2 ^ 32 - 1)).map fun i => ⟨⟨i.val + 1, add_lt_of_lt_sub i.2⟩, 1⟩,
    ?_, ?_, ?_⟩
  · rw [length_map, length_finRange]
  · refine pairwise_map.mpr ((pairwise_lt_finRange _).imp fun {i j} hij => ?_)
    exact Fin.lt_def.mpr (succ_lt_succ hij)
  · intro e he
    obtain ⟨i, -, rfl⟩ := mem_map.mp he
    exact ⟨show ((1 : Fin (2 ^ 32)) : ℕ) ≠ 0 by decide, succ_ne_zero _⟩

/-- A clock in a block of just its size. -/
theorem valid_heapClock (hlen : l.length = n) (hbig : vcPreallocated < n) (hlt : n < 2 ^ 32)
    (hinc : Increasing threadid l) (hpos : ∀ e ∈ l, e.count.val ≠ 0) :
    (⟨n, n, .heap l, List.replicate vcPreallocated ⟨0, 0⟩⟩ : VectorClock).Valid
      ∧ (⟨n, n, .heap l, List.replicate vcPreallocated ⟨0, 0⟩⟩ : VectorClock).elems = l := by
  have hel : (⟨n, n, .heap l, List.replicate vcPreallocated ⟨0, 0⟩⟩ : VectorClock).elems = l :=
    take_of_length_le hlen.le
  exact ⟨⟨⟨length_replicate, le_rfl, hlt, .inr (.inr ⟨⟨l, rfl, hlen⟩, hbig⟩)⟩,
    hel.symm ▸ hinc, hel.symm ▸ hpos⟩, hel⟩

/-- **Where the algebra ends.**  A count of `2 ^ 32 - 1` is not incremented, and two clocks that hold
all `2 ^ 32` thread ids between them are not combined: the size wraps, and the merge writes past the
block. -/
theorem clock_limits :
    (∃ (a : VectorClock) (t : DrdThreadId), a.Valid
      ∧ ∀ junk, vcIncrement junk a t = .error .assertion)
    ∧ ∃ a b : VectorClock, a.Valid ∧ b.Valid ∧ ∀ junk, vcCombine junk a b = .error .wildAccess := by
  constructor
  · have ha : (smallClock [⟨1, Fin.last (2 ^ 32 - 1)⟩]).Valid :=
      valid_smallClock (by decide) (pairwise_singleton _ _) (by decide)
    have hel : (smallClock [⟨1, Fin.last (2 ^ 32 - 1)⟩]).elems = [⟨1, Fin.last (2 ^ 32 - 1)⟩] :=
      elems_of_array rfl rfl
    have hcount : (smallClock [⟨1, Fin.last (2 ^ 32 - 1)⟩]).count 1 = 2 ^ 32 - 1 := by
      rw [VectorClock.count, hel, index, find?_cons_of_pos (by simp)]
      rfl
    exact ⟨_, 1, ha, fun junk => vcIncrement_max junk ha hcount⟩
  · have hb : (smallClock [⟨0, 1⟩]).Valid :=
      valid_smallClock (by decide) (pairwise_singleton _ _) (by decide)
    have hbe : (smallClock [⟨0, 1⟩]).elems = [⟨0, 1⟩] := elems_of_array rfl rfl
    obtain ⟨l, hlen, hinc, hl⟩ := exists_allThreads
    obtain ⟨ha, hae⟩ := valid_heapClock hlen (by norm_num [vcPreallocated]) (by norm_num) hinc
      fun e he => (hl e he).1
    refine ⟨_, _, ha, hb, fun junk => vcCombine_overflow junk ha hb hlen.symm ?_⟩
    have hmeet := length_add_countP_align VCElem.threadid l [⟨0, 1⟩]
    have hzero : (align VCElem.threadid l [⟨0, 1⟩]).countP Turn.isBoth = 0 := by
      refine countP_eq_zero.mpr fun x hx => ?_
      have hmeets := (mem_align hinc (pairwise_singleton _ _) x).mp hx
      cases x with
      | left e | right e => exact Bool.false_ne_true
      | both e f =>
        obtain ⟨he, hf, hkey⟩ := hmeets
        obtain rfl := mem_singleton.mp hf
        exact absurd (congrArg Fin.val hkey) (hl e he).2
    rw [hzero, length_singleton, hlen, add_zero] at hmeet
    rw [hae, hbe]
    exact hmeet.trans (by norm_num)

/-! ## `vc_min` -/

/-- What one element of `rhs` makes of a thread's count `n`. -/
def meet (t : DrdThreadId) (n : Fin (2 ^ 32)) (f : VCElem) : Fin (2 ^ 32) :=
  if t < f.threadid then 0 else if t = f.threadid then min f.count n else n

/-- What all elements of `rhs` make of an element, in order. -/
def meets (bs : List VCElem) (e : VCElem) : VCElem :=
  { e with count := bs.foldl (meet e.threadid) e.count }

/-- What is cleared stays so. -/
theorem foldl_meet_zero (t : DrdThreadId) (bs : List VCElem) : bs.foldl (meet t) 0 = 0 := by
  induction bs with
  | nil => rfl
  | cons f bs ih => rwa [foldl_cons, show meet t 0 f = 0 by simp [meet]]

/-- Larger threads are left alone. -/
theorem map_meets_gt (h : ∀ e ∈ q, f.threadid < e.threadid) (bs : List VCElem) :
    q.map (meets (f :: bs)) = q.map (meets bs) := by
  refine map_congr_left fun e he => ?_
  rw [meets, foldl_cons, meet, if_neg (h e he).not_gt, if_neg (h e he).ne', meets]

/-- **`vc_min` is no minimum**: no assertion fails, and an element of `rhs` clears the counts of all
smaller threads, also of those that `rhs` has. -/
theorem vcMin_clears (hq : Increasing threadid q) (bs : List VCElem) :
    vcMin q bs = .ok (q.map (meets bs)) ∧ Increasing threadid (q.map (meets bs))
      ∧ ∀ e, ∀ f ∈ bs, e.threadid < f.threadid → (meets bs e).count = 0 := by
  refine ⟨?_, pairwise_map.mpr hq, ?_⟩
  · fun_induction vcMin q bs with
    | case1 q => exact congrArg _ (map_id q).symm
    | case2 => rfl
    | case3 e q f bs hlt ih =>
      rw [ih hq.tail, map_cons, meets, foldl_cons, meet, if_pos hlt, foldl_meet_zero]
      rfl
    | case4 e q f bs hlt hle ih =>
      have heq := hle.antisymm (not_lt.mp hlt)
      rw [vgAssert_bind heq, ih (pairwise_cons.mpr ⟨hq.head_lt, hq.tail⟩), map_cons, map_cons,
        map_meets_gt (heq ▸ hq.head_lt), meets, meets, foldl_cons, meet, if_neg hlt, if_pos heq]
    | case5 e q f bs hlt hle ih => rw [ih hq, map_meets_gt (hq.lt_all (not_le.mp hle))]
  · intro e f hf hlt
    obtain ⟨l, r, rfl⟩ := append_of_mem hf
    rw [meets, foldl_append, foldl_cons, meet, if_pos hlt, foldl_meet_zero]

/-- Two equal clocks lose a count. -/
theorem vcMin_clears_self :
    vcMin [⟨1, 5⟩, ⟨2, 7⟩] [⟨1, 5⟩, ⟨2, 7⟩] = .ok [⟨1, 0⟩, ⟨2, 7⟩] :=
  (vcMin_clears (by simp [Increasing]) _).1.trans (by decide)

end Valgrind.Drd
