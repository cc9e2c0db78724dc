import Valgrind.Core.XArray
import Valgrind.Foundations.Tiling

/-!
# Core/RangeMap — `coregrind/m_rangemap.c`: total functions on words, as sorted ranges

The ranges of a map tile the words (`Foundations/Tiling`).  Binding a range of keys cuts the ranges
at both its ends, overwrites those between, and joins neighbours of one value.

**Refinement** (`bindRangeMap_refines`): after any bindings, a lookup returns the value of the last
binding that covers the key, together with the largest interval around the key on which the function
is constant; no call panics or indexes outside the array.
-/

namespace Valgrind

open List Nat Tiling Piece Denotes

/-- `UWORD_MAX`. -/
def uwordMax : ℕ := 2 ^ 64 - 1

namespace RangeMap

/-! ## The code -/

/-- `Range`. -/
structure Range where
  keyMin : UWord
  keyMax : UWord
  val : UWord

end RangeMap

open RangeMap (Range)

/-- `struct _RangeMap`, without its allocation functions. -/
structure RangeMap where
  ranges : List Range

namespace RangeMap

/-- `VG_(newRangeMap)`. -/
def newRangeMap (initialVal : UWord) : Except Abort RangeMap :=
  let (i, ranges) := addToXA [] ⟨0, uwordMax, initialVal⟩
  if ¬ i = 0 then .error .assertion
  else if ¬ sizeXA ranges = 1 then .error .assertion
  else .ok ⟨ranges⟩

/-- `find`: the unsearched space is `lo .. hi` inclusive, and starts as `0 .. size`. -/
def find (rm : RangeMap) (key : UWord) : Except Abort ℤ :=
  Bisection.bisect
    (fun mid => do
      let midRng ← indexXA rm.ranges mid
      return if key < midRng.keyMin then .lt else if key > midRng.keyMax then .gt else .eq)
    (.panic "RangeMap::find: not found") 0 (sizeXA rm.ranges)

/-- `split_at`. -/
def splitAt (rm : RangeMap) (key : UWord) : Except Abort RangeMap := do
  let i ← rm.find key
  let rngI0 ← indexXA rm.ranges i
  if rngI0.keyMin = key then return rm
  let ranges ← insertIndexXA rm.ranges (i + 1) rngI0
  let ranges ← updateXA ranges i fun rng => { rng with keyMax := (key + (2 ^ 64 - 1)) % 2 ^ 64 }
  let ranges ← updateXA ranges (i + 1) fun rng => { rng with keyMin := key }
  return ⟨ranges⟩

/-- The loop of `preen` from index `i` on.  Where two ranges are joined the index stays; so each
turn gets nearer to the end, and as much fuel as there are ranges suffices. -/
def preenLoop : ℕ → List Range → ℕ → Except Abort (List Range)
  | 0, _, _ => .error .diverges
  | fuel + 1, ranges, i =>
    if (i : ℤ) < sizeXA ranges - 1 then do
      let rng0 ← indexXA ranges i
      let rng1 ← indexXA ranges (i + 1)
      if rng0.val ≠ rng1.val then preenLoop fuel ranges (i + 1)
      else do
        let ranges ← updateXA ranges i fun rng => { rng with keyMax := rng1.keyMax }
        let ranges ← removeIndexXA ranges (i + 1)
        preenLoop fuel ranges i
    else .ok ranges

/-- `preen`. -/
def preen (rm : RangeMap) : Except Abort RangeMap := do
  return ⟨← preenLoop (rm.ranges.length + 1) rm.ranges 0⟩

/-- The loop of `VG_(bindRangeMap)` that overwrites `n` ranges from index `i` on. -/
def bindLoop (val : UWord) : List Range → ℤ → ℕ → Except Abort (List Range)
  | ranges, _, 0 => .ok ranges
  | ranges, i, n + 1 => do
    let ranges ← updateXA ranges i fun rng => { rng with val := val }
    bindLoop val ranges (i + 1) n

/-- The two splits of `VG_(bindRangeMap)`. -/
def splitEnds (rm : RangeMap) (keyMin keyMax : UWord) : Except Abort RangeMap := do
  let rm ← rm.splitAt keyMin
  if keyMax < uwordMax then rm.splitAt (keyMax + 1) else return rm

/-- `VG_(bindRangeMap)`. -/
def bindRangeMap (rm : RangeMap) (keyMin keyMax val : UWord) : Except Abort RangeMap :=
  if ¬ keyMin ≤ keyMax then .error .assertion
  else do
    let rm ← rm.splitEnds keyMin keyMax
    let iMin ← rm.find keyMin
    let iMax ← rm.find keyMax
    let ranges ← bindLoop val rm.ranges iMin (iMax + 1 - iMin).toNat
    preen ⟨ranges⟩

/-- `VG_(lookupRangeMap)`: `key_min`, `key_max` and `val`. -/
def lookupRangeMap (rm : RangeMap) (key : UWord) : Except Abort (UWord × UWord × UWord) := do
  let i ← rm.find key
  let rng ← indexXA rm.ranges i
  return (rng.keyMin, rng.keyMax, rng.val)

/-! ## Ranges as pieces -/

instance : Piece Range := ⟨Range.keyMin, Range.keyMax⟩

/-- What a range says of its keys. -/
def view (rng : Range) (_ : ℕ) : UWord := rng.val

/-- A range, split at a key. -/
def split (rng : Range) (key : UWord) : Range × Range :=
  ({ rng with keyMax := key - 1 }, { rng with keyMin := key })

/-- Neighbours of one value, joined. -/
def merge (rng0 rng1 : Range) : Option Range :=
  if rng0.val ≠ rng1.val then none else some { rng0 with keyMax := rng1.keyMax }

theorem isSplit : IsSplit view split where
  first_fst _ _ _ _ := rfl
  last_fst _ _ h _ := Nat.sub_add_cancel (Nat.one_le_of_lt h)
  first_snd _ _ _ _ := rfl
  last_snd _ _ _ _ := rfl
  view_fst _ _ _ _ _ _ _ := rfl
  view_snd _ _ _ _ _ _ _ := rfl

theorem merge_eq_some {r s t : Range} :
    merge r s = some t ↔ r.val = s.val ∧ { r with keyMax := s.keyMax } = t := by
  rw [merge]
  split_ifs with h
  · exact ⟨nofun, fun h' => absurd h'.1 h⟩
  · exact ⟨fun h' => ⟨not_not.mp h, Option.some.inj h'⟩, fun h' => congrArg some h'.2⟩

theorem merge_eq_none {r s : Range} : merge r s = none ↔ r.val ≠ s.val := by
  rw [merge]
  split_ifs with h
  · exact iff_of_true rfl h
  · exact iff_of_false nofun h

theorem isMerge : IsMerge view merge where
  first_eq h := by
    obtain ⟨-, rfl⟩ := merge_eq_some.mp h
    rfl
  last_eq h := by
    obtain ⟨-, rfl⟩ := merge_eq_some.mp h
    rfl
  view_left h _ _ _ := by
    obtain ⟨-, rfl⟩ := merge_eq_some.mp h
    rfl
  view_right h _ _ _ := by
    obtain ⟨hval, rfl⟩ := merge_eq_some.mp h
    exact hval
  stable h hnone := by
    obtain ⟨-, rfl⟩ := merge_eq_some.mp h
    have hval := merge_eq_none.mp hnone
    exact merge_eq_none.mpr hval

/-! ## What the functions do to a tiling -/

section Code

variable {l l₁ l₂ m r : List Range} {s : Range} {a b key : ℕ}

/-- **`find` returns the index of the range around the key**, and stays inside the array. -/
theorem find_eq (h : Tiles a (l₁ ++ s :: l₂) b) (hmin : s.keyMin ≤ key) (hmax : key ≤ s.keyMax) :
    find ⟨l₁ ++ s :: l₂⟩ key = .ok l₁.length := by
  refine h.bisect_eq hmin hmax (fun i t hget => ?_) _ ?_ le_rfl
  · rw [indexXA, if_neg (by omega), Int.toNat_natCast, hget]
    rfl
  · simp [sizeXA]
    omega

/-- **`split_at` cuts the ranges.** -/
theorem splitAt_eq (h : Tiles a l b) (ha : a ≤ key) (hb : key < b) (hfit : b ≤ 2 ^ 64) :
    splitAt ⟨l⟩ key = .ok ⟨Tiling.cut split key l⟩ := by
  obtain ⟨l₁, s, l₂, rfl, -, hmin, hmax, -⟩ := h.exists_piece ha hb
  rw [splitAt, find_eq h hmin hmax, ok_bind, indexXA_append, ok_bind]
  by_cases hkey : s.keyMin = key
  · rw [if_pos hkey, cut_start h hkey]
    rfl
  · have hlt : s.keyMin < key := lt_of_le_of_ne hmin hkey
    have hpred : (key + (2 ^ 64 - 1)) % 2 ^ 64 = key - 1 := by
      have hpos : 0 < key := zero_lt_of_lt hlt
      omega
    have hins := insertIndexXA_append (l₁ ++ [s]) l₂ s
    have hupd := updateXA_append (l₁ ++ [{ s with keyMax := key - 1 }]) l₂ s
      fun rng => { rng with keyMin := key }
    simp only [append_assoc, cons_append, nil_append, length_append,
      length_singleton, cast_add, cast_one] at hins hupd
    rw [if_neg hkey, hins, ok_bind, updateXA_append, ok_bind, hpred, hupd, ok_bind, pure_eq_ok,
      cut_inside h hlt hmax]
    rfl

/-- **`preen` joins the ranges**: in front of the index they are joined already. -/
theorem preenLoop_eq (l : List Range) (s : Range) (r : List Range) {fuel : ℕ}
    (hfuel : r.length < fuel) :
    preenLoop fuel (l ++ s :: r) l.length = .ok (l ++ Tiling.coalesce merge (s :: r)) := by
  induction r generalizing l s fuel with
  | nil =>
    obtain ⟨fuel, rfl⟩ := exists_eq_succ_of_ne_zero (ne_of_gt hfuel)
    rw [preenLoop, if_neg (by simp [sizeXA]), coalesce]
  | cons t r ih =>
    obtain ⟨fuel, rfl⟩ := exists_eq_succ_of_ne_zero (ne_zero_of_lt hfuel)
    have hfuel' : r.length < fuel := lt_of_succ_lt_succ hfuel
    have hget := indexXA_append (l ++ [s]) r t
    have hrem := removeIndexXA_append (l ++ [{ s with keyMax := t.keyMax }]) r t
    have hnext := ih (l ++ [s]) t hfuel'
    simp only [append_assoc, cons_append, nil_append, length_append,
      length_singleton, cast_add, cast_one] at hget hrem hnext
    rw [preenLoop, if_pos (by simp [sizeXA]; omega), indexXA_append, ok_bind, hget, ok_bind,
      coalesce]
    by_cases hval : s.val ≠ t.val
    · rw [if_pos hval, hnext, merge_eq_none.mpr hval]
    · rw [if_neg hval, updateXA_append, ok_bind, hrem, ok_bind, ih _ _ hfuel',
        merge_eq_some.mpr ⟨not_not.mp hval, rfl⟩]

theorem preen_eq (h : Tiles 0 l (2 ^ 64)) : preen ⟨l⟩ = .ok ⟨Tiling.coalesce merge l⟩ := by
  obtain ⟨s, r, rfl, -⟩ := h.exists_head (by norm_num)
  have hloop := preenLoop_eq [] s r (lt_succ_of_lt r.length.lt_succ_self)
  simp only [nil_append, length_nil] at hloop
  have hpreen : preen ⟨s :: r⟩
      = preenLoop (r.length.succ + 1) (s :: r) 0 >>= fun ranges => .ok ⟨ranges⟩ := rfl
  rw [hpreen, hloop, ok_bind]

theorem bindLoop_eq (val : UWord) (l m r : List Range) :
    bindLoop val (l ++ (m ++ r)) l.length m.length
      = .ok (l ++ (m.map ({ · with val := val }) ++ r)) := by
  induction m generalizing l with
  | nil => rfl
  | cons s m ih =>
    have hrest := ih (l ++ [{ s with val := val }])
    simp only [append_assoc, cons_append, nil_append, length_append,
      length_singleton, cast_add, cast_one] at hrest
    rw [length_cons, cons_append, bindLoop, updateXA_append, ok_bind, hrest,
      map_cons, cons_append]

/-- The first and the last of the ranges between two cuts are found by the keys there. -/
theorem find_ends (h : Tiles 0 (l₁ ++ (m ++ l₂)) (2 ^ 64)) (hm : Tiles a m (b + 1))
    (hab : a ≤ b) :
    find ⟨l₁ ++ (m ++ l₂)⟩ a = .ok l₁.length
      ∧ find ⟨l₁ ++ (m ++ l₂)⟩ b = .ok (l₁.length + m.length - 1) := by
  constructor
  · obtain ⟨s, r, rfl, hs, hle⟩ := hm.exists_head (by omega)
    exact find_eq h hs.le (hs.symm.le.trans hle)
  · obtain ⟨r, s, rfl, hle, hs⟩ := hm.exists_last (by omega)
    rw [append_assoc, singleton_append, ← append_assoc] at h ⊢
    obtain rfl : s.keyMax = b := succ.inj hs
    have hfind : find ⟨l₁ ++ r ++ s :: l₂⟩ s.keyMax = .ok (l₁ ++ r).length := find_eq h hle le_rfl
    rw [hfind]
    simp
    omega

/-- The function after a binding. -/
def rebind (f : ℕ → UWord) (keyMin keyMax : ℕ) (val : UWord) : ℕ → UWord :=
  fun key => if keyMin ≤ key ∧ key ≤ keyMax then val else f key

variable {f : ℕ → UWord} {keyMin keyMax : ℕ}

/-- Both splits of a binding leave the ranges in front of it, those it covers, and those behind. -/
theorem splitEnds_spec (h : Tiles 0 l (2 ^ 64)) (hf : Denotes view l f) (hle : keyMin ≤ keyMax)
    (hmax : keyMax ≤ uwordMax) :
    ∃ l₁ m l₂, splitEnds ⟨l⟩ keyMin keyMax = .ok ⟨l₁ ++ (m ++ l₂)⟩
      ∧ Tiles 0 l₁ keyMin ∧ Tiles keyMin m (keyMax + 1) ∧ Tiles (keyMax + 1) l₂ (2 ^ 64)
      ∧ Denotes view l₁ f ∧ Denotes view l₂ f := by
  have hword : uwordMax = 2 ^ 64 - 1 := rfl
  obtain ⟨l₁, r, hcut, h₁, hr, hd₁, hdr⟩ :=
    cut_spec (p := keyMin) isSplit h hf zero_le (by omega)
  rw [splitEnds, splitAt_eq h zero_le (by omega) le_rfl, ok_bind, hcut]
  by_cases hlast : keyMax < uwordMax
  · obtain ⟨m, l₂, hcut₂, hm, h₂, -, hd₂⟩ :=
      cut_spec (p := keyMax + 1) isSplit hr hdr (by omega) (by omega)
    refine ⟨l₁, m, l₂, ?_, h₁, hm, h₂, hd₁, hd₂⟩
    rw [if_pos hlast, splitAt_eq (h₁.append hr) zero_le (by omega) le_rfl,
      cut_append h₁ (by omega), hcut₂]
  · have hend : keyMax + 1 = 2 ^ 64 := by omega
    exact ⟨l₁, r, [], by rw [if_neg hlast, append_nil, pure_eq_ok], h₁, hend ▸ hr, hend, hd₁,
      fun _ hs => absurd hs not_mem_nil⟩

end Code

/-! ## Maps and the functions they stand for -/

/-- The ranges are sorted and not empty, and cover all words without a gap or an overlap; neighbours
have different values. -/
structure Partition (rm : RangeMap) : Prop where
  tiles : Tiles 0 rm.ranges (uwordMax + 1)
  differ : rm.ranges.IsChain fun rng0 rng1 => rng0.val ≠ rng1.val

/-- The map stands for the function. -/
structure Represents (rm : RangeMap) (f : ℕ → UWord) : Prop extends Partition rm where
  denotes : Denotes view rm.ranges f

variable {rm : RangeMap} {f : ℕ → UWord} {keyMin keyMax : ℕ}

theorem represents_new (init : UWord) :
    ∃ rm, newRangeMap init = .ok rm ∧ Represents rm fun _ => init :=
  ⟨⟨[⟨0, uwordMax, init⟩]⟩, rfl, ⟨⟨rfl, zero_le, rfl⟩, .singleton _⟩,
    forall_mem_singleton.mpr fun _ _ _ => rfl⟩

/-- **A binding overwrites the function on its keys.** -/
theorem bindRangeMap_spec (h : Represents rm f) (hle : keyMin ≤ keyMax) (hmax : keyMax ≤ uwordMax)
    (val : UWord) :
    ∃ rm', rm.bindRangeMap keyMin keyMax val = .ok rm'
      ∧ Represents rm' (rebind f keyMin keyMax val) := by
  obtain ⟨l₁, m, l₂, hsplit, h₁, hm, h₂, hd₁, hd₂⟩ := splitEnds_spec h.tiles h.denotes hle hmax
  have hall : Tiles 0 (l₁ ++ (m ++ l₂)) (2 ^ 64) := h₁.append (hm.append h₂)
  have hends := find_ends hall hm hle
  have hcount : ((l₁.length + m.length - 1 : ℤ) + 1 - l₁.length).toNat = m.length := by omega
  have hbind : rm.bindRangeMap keyMin keyMax val
      = preen ⟨l₁ ++ (m.map ({ · with val := val }) ++ l₂)⟩ := by
    rw [bindRangeMap, if_neg (not_not.mpr hle), hsplit, ok_bind, hends.1, ok_bind,
      hends.2, ok_bind, hcount, bindLoop_eq, ok_bind]
  have hmid : Tiles keyMin (m.map ({ · with val := val })) (keyMax + 1) :=
    (tiles_map (g := ({ · with val := val })) (fun _ => rfl) fun _ => rfl).mpr hm
  have htiles := h₁.append (hmid.append h₂)
  have hden : Denotes view (l₁ ++ (m.map ({ · with val := val }) ++ l₂))
      (rebind f keyMin keyMax val) := by
    refine append.mpr ⟨hd₁.congr h₁ fun x _ hx => ?_, append.mpr
      ⟨fun s hs x hx hx' => ?_, hd₂.congr h₂ fun x hx _ => ?_⟩⟩
    · exact (if_neg (by omega)).symm
    · have hin := hmid.bounds s hs
      obtain ⟨s', -, rfl⟩ := mem_map.mp hs
      exact (if_pos (by omega)).symm
    · exact (if_neg (by omega)).symm
  obtain ⟨htiles', hden'⟩ := coalesce_spec isMerge htiles hden
  rw [hbind, preen_eq htiles]
  exact ⟨_, rfl, ⟨htiles', (isChain_coalesce isMerge _).1.imp fun _ _ => merge_eq_none.mp⟩,
    hden'⟩

/-- The largest interval of words around the key on which the function is constant. -/
structure MaximalInterval (f : ℕ → UWord) (key lo hi : ℕ) : Prop where
  lo_le : lo ≤ key
  le_hi : key ≤ hi
  hi_le : hi ≤ uwordMax
  constant : ∀ k, lo ≤ k → k ≤ hi → f k = f key
  maximal : ∀ lo' hi', lo' ≤ key → key ≤ hi' → hi' ≤ uwordMax →
    (∀ k, lo' ≤ k → k ≤ hi' → f k = f key) → lo ≤ lo' ∧ hi' ≤ hi

/-- **A lookup returns the value of the function**, and the largest interval on which it has it. -/
theorem lookupRangeMap_spec (h : Represents rm f) {key : ℕ} (hkey : key ≤ uwordMax) :
    ∃ lo hi, rm.lookupRangeMap key = .ok (lo, hi, f key) ∧ MaximalInterval f key lo hi := by
  obtain ⟨l⟩ := rm
  obtain ⟨⟨htiles, hdiffer⟩, hf⟩ := h
  obtain ⟨l₁, s, l₂, rfl, h₁, hmin, hmax, h₂⟩ :=
    htiles.exists_piece zero_le (lt_succ_of_le hkey)
  obtain ⟨hf₁, hfs, hf₂⟩ := (append.trans (and_congr_right' cons)).mp hf
  obtain ⟨-, hdiffer₂, hdiffer₁⟩ := isChain_append.mp hdiffer
  have hval : s.val = f key := hfs key hmin hmax
  refine ⟨s.keyMin, s.keyMax, ?_, hmin, hmax, le_of_lt_succ h₂.le, fun k hk hk' => ?_,
    fun lo' hi' hlo hhi hfit hconst => ⟨?_, ?_⟩⟩
  · rw [lookupRangeMap, find_eq htiles hmin hmax, ok_bind, indexXA_append, ok_bind, hval]
    rfl
  · rw [← hval]
    exact (hfs k hk hk').symm
  -- A larger interval would meet a key of the range in front…
  · by_contra hlt
    have hlo' : lo' < first s := lt_of_not_ge hlt
    obtain ⟨r, t, rfl, hle, hlast⟩ := h₁.exists_last (by omega)
    have hne : t.val ≠ s.val := hdiffer₁ t (by simp) s (by simp)
    have ht : t.val = f (last t) := hf₁ t (by simp) _ hle le_rfl
    have hsame := hconst (last t) (by omega) (by omega)
    exact hne (ht.trans (hsame.trans hval.symm))
  -- …or of the range behind it.
  · by_contra hlt
    have hhi' : last s < hi' := lt_of_not_ge hlt
    obtain ⟨t, r, rfl, hfirst, hle⟩ := h₂.exists_head (by omega)
    have hne : s.val ≠ t.val := (isChain_cons_cons.mp hdiffer₂).1
    have ht : t.val = f (first t) := hf₂ t (by simp) _ le_rfl hle
    have hsame := hconst (first t) (by omega) (by omega)
    exact hne (hval.trans (hsame.symm.trans ht.symm))

/-! ## Bindings -/

/-- A call of `VG_(bindRangeMap)` that meets its assertion. -/
structure Bind where
  keyMin : ℕ
  keyMax : ℕ
  val : UWord
  le : keyMin ≤ keyMax
  fits : keyMax ≤ uwordMax

/-- The value of the last of the bindings that covers the key, or the initial value. -/
def lastBind (init : UWord) (binds : List Bind) (key : ℕ) : UWord :=
  binds.foldl (fun val b => if b.keyMin ≤ key ∧ key ≤ b.keyMax then b.val else val) init

/-- Make the calls one after the other. -/
def bindAll (rm : RangeMap) (binds : List Bind) : Except Abort RangeMap :=
  binds.foldlM (fun rm b => rm.bindRangeMap b.keyMin b.keyMax b.val) rm

theorem bindAll_spec (h : Represents rm f) (binds : List Bind) :
    ∃ rm', rm.bindAll binds = .ok rm' ∧ Represents rm' fun key => lastBind (f key) binds key := by
  induction binds generalizing rm f with
  | nil => exact ⟨rm, rfl, h⟩
  | cons b binds ih =>
    obtain ⟨rm₁, hok, h₁⟩ := bindRangeMap_spec h b.le b.fits b.val
    obtain ⟨rm₂, hok₂, h₂⟩ := ih h₁
    refine ⟨rm₂, ?_, h₂⟩
    rw [bindAll, foldlM_cons, hok, ok_bind]
    exact hok₂

/-- **A range map is a total function on words.**  After any bindings the ranges partition the
words, neighbours having different values; and a lookup returns the value of the last binding that
covers the key, with the largest interval around it on which the function is constant.  No call
fails: no search panics, and no index is out of range. -/
theorem bindRangeMap_refines (init : UWord) (binds : List Bind) :
    ∃ rm, (newRangeMap init >>= (bindAll · binds)) = .ok rm ∧ Partition rm
      ∧ ∀ key ≤ uwordMax, ∃ lo hi, rm.lookupRangeMap key = .ok (lo, hi, lastBind init binds key)
        ∧ MaximalInterval (lastBind init binds) key lo hi := by
  obtain ⟨rm₀, hnew, h₀⟩ := represents_new init
  obtain ⟨rm, hok, h⟩ := bindAll_spec h₀ binds
  refine ⟨rm, ?_, h.toPartition, fun key hkey => lookupRangeMap_spec h hkey⟩
  rw [hnew, ok_bind, hok]

end RangeMap

end Valgrind
