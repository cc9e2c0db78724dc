import Valgrind.Memcheck.MallocWrappers

/-!
# Memcheck/MempoolTrim — `MC_(mempool_trim)`: the chunks of a pool cut down to a range

Chunks inside the range stay, chunks with both ends outside it go, and the others are to be replaced
by what they share with the range.  Their new bounds are computed with the size of the range in
place of the size of the chunk, a chunk around the range has both ends outside it, and the redzones
of a deleted chunk may lie in the range.  `mempoolTrim_exact_iff` says for which pools the result is
right all the same.
-/

namespace Valgrind.Memcheck

open List Nat Chunk ByteMap ByteState

/-- `MC_Mempool`, with the fields that trimming reads. -/
structure Mempool where
  pool : ℕ
  /-- Pool red-zone size. -/
  rzB : ℕ
  chunks : List Chunk

/-! ## The code -/

section Code

variable (addr szB : ℕ)

/-- `EXTENT_CONTAINS`. -/
def ExtentContains (x : ℕ) : Prop := addr ≤ x ∧ x < (addr + szB) % 2 ^ 64

instance (x : ℕ) : Decidable (ExtentContains addr szB x) := inferInstanceAs (Decidable (_ ∧ _))

/-- The address of the chunk's last byte. -/
def Chunk.last (mc : Chunk) : ℕ :=
  if mc.szB = 0 then mc.data else (mc.data + mc.szB + (2 ^ 64 - 1)) % 2 ^ 64

/-- The bounds of a chunk and a range that meet: of both together, and of what they share. -/
structure TrimBounds where
  min : ℕ
  lo : ℕ
  hi : ℕ
  max : ℕ

/-- The bounds as the code computes them. -/
def trimBounds (mc : Chunk) : Except Abort TrimBounds :=
  let start := if mc.data < addr then (mc.data, addr) else (addr, mc.data)
  let chunkEnd := (mc.data + szB) % 2 ^ 64
  let rangeEnd := (addr + szB) % 2 ^ 64
  let stop := if chunkEnd > rangeEnd then (rangeEnd, chunkEnd) else (chunkEnd, rangeEnd)
  let b : TrimBounds := ⟨start.1, start.2, stop.1, stop.2⟩
  if ¬ b.min ≤ b.lo then .error .assertion
  else if ¬ b.lo < b.hi then .error .assertion
  else if ¬ b.hi ≤ b.max then .error .assertion
  else .ok b

/-- What lies before and after the shared part becomes noaccess. -/
def trimBytes (b : TrimBounds) (m : ByteMap) : ByteMap :=
  let m := if b.min < b.lo ∧ ¬ ExtentContains addr szB b.min
    then m.makeMemNoaccess b.min (b.lo - b.min) else m
  if b.hi < b.max ∧ ¬ ExtentContains addr szB b.max
    then m.makeMemNoaccess b.hi (b.max - b.hi) else m

/-- The loop over the array of the pool's chunks. -/
def mempoolTrimLoop (o : Options) (rzB : ℕ) :
    List Chunk → List Chunk → Heap → Except Abort (List Chunk × Heap)
  | [], table, h => .ok (table, h)
  | mc :: rest, table, h =>
    if ExtentContains addr szB mc.data ∧ ExtentContains addr szB mc.last then
      mempoolTrimLoop o rzB rest table h
    else if ¬ ExtentContains addr szB mc.data ∧ ¬ ExtentContains addr szB mc.last then
      match htRemove table mc.data with
      | none => .ok (table, h.record (.free mc.data))
      | some (_, table) => mempoolTrimLoop o rzB rest table (h.dieAndFreeMem o mc rzB)
    else
      match htRemove table mc.data with
      | none => .ok (table, h.record (.free mc.data))
      | some (_, table) => do
        let b ← trimBounds addr szB mc
        mempoolTrimLoop o rzB rest
          ({ mc with data := b.lo, szB := (b.hi - b.lo) % 2 ^ 32 } :: table)
          { h with bytes := trimBytes addr szB b h.bytes }

/-- The table of the first pool of that address is replaced. -/
def setChunks (pool : Addr) (chunks : List Chunk) : List Mempool → List Mempool
  | [] => []
  | mp :: rest =>
    if mp.pool = pool then { mp with chunks := chunks } :: rest
    else mp :: setChunks pool chunks rest

/-- `MC_(mempool_trim)`; `check_mempool_sane` only prints. -/
def mempoolTrim (o : Options) (pools : List Mempool) (h : Heap) (pool : Addr) :
    Except Abort (List Mempool × Heap) :=
  match pools.find? fun mp => mp.pool = pool with
  | none => .ok (pools, h.record (.illegalMempool pool))
  | some mp => do
    let (chunks, h) ← mempoolTrimLoop addr szB o mp.rzB mp.chunks mp.chunks h
    return (setChunks pool chunks pools, h)

end Code

/-! ## What trimming is for -/

/-- Two chunks share no byte. -/
def Chunk.Apart (c c' : Chunk) : Prop := c.data + c.szB ≤ c'.data ∨ c'.data + c'.szB ≤ c.data

instance : Std.Symm Chunk.Apart := ⟨fun _ _ => Or.symm⟩

/-- A non-empty chunk of the address space; its size is a field of 62 bits. -/
structure Chunk.Ok (mc : Chunk) : Prop where
  pos : 0 < mc.szB
  szB_lt : mc.szB < 2 ^ 62
  no_wrap : mc.data + mc.szB ≤ 2 ^ 64

/-- A pool of pairwise disjoint non-empty chunks. -/
structure Mempool.Ok (mp : Mempool) : Prop where
  rzB_lt : mp.rzB < 2 ^ 32
  chunk : ∀ mc ∈ mp.chunks, mc.Ok
  apart : mp.chunks.Pairwise Chunk.Apart

section Spec

variable (addr szB : ℕ)

/-- What a chunk shares with the range. -/
def Chunk.inter (mc : Chunk) : Option Chunk :=
  let lo := max mc.data addr
  let hi := min (mc.data + mc.szB) (addr + szB)
  if lo < hi then some { mc with data := lo, szB := hi - lo } else none

/-- The chunks are the non-empty intersections of the old ones with the range, the bytes of old
chunks outside the range are noaccess, and the accessibility of the bytes in the range is what it
was. -/
structure TrimmedTo (old : List Chunk) (h : Heap) (new : List Chunk) (h' : Heap) : Prop where
  chunks : new.Perm (old.filterMap (Chunk.inter addr szB))
  outside : ∀ mc ∈ old, ∀ x, mc.data ≤ x → x < mc.data + mc.szB →
    ¬ (addr ≤ x ∧ x < addr + szB) → h'.bytes x = .noaccess
  inside : ∀ x, addr ≤ x → x < addr + szB → (h'.bytes x = .noaccess ↔ h.bytes x = .noaccess)

/-! ## Where a chunk can lie -/

/-- The chunk lies in the range. -/
def Chunk.Within (mc : Chunk) : Prop := addr ≤ mc.data ∧ mc.data + mc.szB ≤ addr + szB

/-- The chunk and the range share no byte. -/
def Chunk.Outside (mc : Chunk) : Prop := mc.data + mc.szB ≤ addr ∨ addr + szB ≤ mc.data

/-- The chunk begins before the range and ends after it. -/
def Chunk.Around (mc : Chunk) : Prop := mc.data < addr ∧ addr + szB < mc.data + mc.szB

/-- The chunk begins before the range and ends in it. -/
def Chunk.CrossesStart (mc : Chunk) : Prop :=
  mc.data < addr ∧ addr < mc.data + mc.szB ∧ mc.data + mc.szB ≤ addr + szB

/-- The chunk begins in the range and ends after it. -/
def Chunk.CrossesEnd (mc : Chunk) : Prop :=
  addr ≤ mc.data ∧ mc.data < addr + szB ∧ addr + szB < mc.data + mc.szB

/-- The bytes that become noaccess: all of a deleted chunk and its redzones; what a chunk across the
start has before the range, and as many bytes at the end of the range; as many bytes after the range
as a chunk across its end begins after its start. -/
def Chunk.Marks (rzB : ℕ) (mc : Chunk) (x : ℕ) : Prop :=
  (mc.Outside addr szB ∨ mc.Around addr szB) ∧
      InRange ((mc.data + (2 ^ 64 - rzB)) % 2 ^ 64) (mc.szB + 2 * rzB) x ∨
    mc.CrossesStart addr szB ∧
      (mc.data ≤ x ∧ x < addr ∨ mc.data + szB ≤ x ∧ x < addr + szB) ∨
    mc.CrossesEnd addr szB ∧ addr + szB ≤ x ∧ x < mc.data + szB

/-- When trimming is right.  No chunk lies around the range.  A chunk across its start has the size
of the range, but for a multiple of `2 ^ 32`, and one across its end begins where the range's size
can be added; what they share with the range is smaller than `2 ^ 32`.  No accessible byte of the
range is among those that become noaccess, and every accessible byte that a chunk across the end has
after the range is. -/
structure TrimOk (mp : Mempool) (h : Heap) : Prop where
  around : ∀ mc ∈ mp.chunks, ¬ mc.Around addr szB
  crossesStart : ∀ mc ∈ mp.chunks, mc.CrossesStart addr szB →
    addr < mc.data + szB ∧ szB % 2 ^ 32 = mc.szB % 2 ^ 32 ∧ mc.data + mc.szB < addr + 2 ^ 32
  crossesEnd : ∀ mc ∈ mp.chunks, mc.CrossesEnd addr szB →
    mc.data + szB < 2 ^ 64 ∧ addr + szB < mc.data + 2 ^ 32
  range : ∀ x, addr ≤ x → x < addr + szB → (∃ mc ∈ mp.chunks, mc.Marks addr szB mp.rzB x) →
    h.bytes x = .noaccess
  tail : ∀ mc ∈ mp.chunks, mc.CrossesEnd addr szB → ∀ x, addr + szB ≤ x → mc.data + szB ≤ x →
    x < mc.data + mc.szB → h.bytes x = .noaccess ∨ ∃ c ∈ mp.chunks, c.Marks addr szB mp.rzB x

end Spec

/-! ## One chunk -/

section One

variable {addr szB : ℕ} {mc : Chunk}

theorem Chunk.Ok.last_eq (h : mc.Ok) : mc.last = mc.data + mc.szB - 1 := by
  have := h.pos
  have := h.no_wrap
  rw [last, if_neg (by omega)]
  omega

/-- The chunk has neither end in the range. -/
abbrev Chunk.Deleted (addr szB : ℕ) (mc : Chunk) : Prop := mc.Outside addr szB ∨ mc.Around addr szB

/-- A chunk and a range lie in one of four ways. -/
theorem Chunk.Ok.position (h : mc.Ok) (addr szB : ℕ) :
    mc.Within addr szB ∧ ¬ mc.Deleted addr szB ∧ ¬ mc.CrossesStart addr szB
        ∧ ¬ mc.CrossesEnd addr szB
      ∨ mc.Deleted addr szB ∧ ¬ mc.CrossesStart addr szB ∧ ¬ mc.CrossesEnd addr szB
      ∨ mc.CrossesStart addr szB ∧ ¬ mc.Deleted addr szB ∧ ¬ mc.CrossesEnd addr szB
      ∨ mc.CrossesEnd addr szB ∧ ¬ mc.Deleted addr szB ∧ ¬ mc.CrossesStart addr szB := by
  have := h.pos
  simp only [Deleted, Within, Outside, Around, CrossesStart, CrossesEnd]
  omega

variable (hrange : addr + szB < 2 ^ 64) {x : ℕ}

include hrange

theorem extentContains_iff : ExtentContains addr szB x ↔ addr ≤ x ∧ x < addr + szB := by
  rw [ExtentContains, mod_eq_of_lt hrange]

theorem contains_of_within (h : mc.Ok) (hin : mc.Within addr szB) :
    ExtentContains addr szB mc.data ∧ ExtentContains addr szB mc.last := by
  have := h.pos
  rw [extentContains_iff hrange, extentContains_iff hrange, h.last_eq]
  simp only [Chunk.Within] at hin
  omega

theorem not_contains_of_deleted (h : mc.Ok) (hout : mc.Deleted addr szB) :
    ¬ ExtentContains addr szB mc.data ∧ ¬ ExtentContains addr szB mc.last := by
  have := h.pos
  rw [extentContains_iff hrange, extentContains_iff hrange, h.last_eq]
  simp only [Chunk.Deleted, Chunk.Outside, Chunk.Around] at hout
  omega

/-- Of a chunk across an end of the range, one end lies in it. -/
theorem contains_one_of_crosses (h : mc.Ok)
    (hc : mc.CrossesStart addr szB ∨ mc.CrossesEnd addr szB) :
    ¬ (ExtentContains addr szB mc.data ∧ ExtentContains addr szB mc.last) ∧
      ¬ (¬ ExtentContains addr szB mc.data ∧ ¬ ExtentContains addr szB mc.last) := by
  have := h.pos
  rw [extentContains_iff hrange, extentContains_iff hrange, h.last_eq]
  simp only [Chunk.CrossesStart, Chunk.CrossesEnd] at hc
  omega

theorem trimBounds_of_crossesStart (hc : mc.CrossesStart addr szB) :
    trimBounds addr szB mc =
      if addr < mc.data + szB then .ok ⟨mc.data, addr, mc.data + szB, addr + szB⟩
      else .error .assertion := by
  obtain ⟨hlt, -, -⟩ := hc
  have hend : (mc.data + szB) % 2 ^ 64 = mc.data + szB := mod_eq_of_lt (by omega)
  simp only [trimBounds, hend, mod_eq_of_lt hrange, if_pos hlt,
    if_neg (show ¬ mc.data + szB > addr + szB by omega)]
  split_ifs <;> first | rfl | omega

theorem trimBounds_of_crossesEnd (hc : mc.CrossesEnd addr szB) :
    trimBounds addr szB mc =
      if mc.data + szB < 2 ^ 64 then .ok ⟨addr, mc.data, addr + szB, mc.data + szB⟩
      else .error .assertion := by
  obtain ⟨hle, hlt, -⟩ := hc
  have hdata : ¬ mc.data < addr := by omega
  by_cases hwrap : mc.data + szB < 2 ^ 64
  · simp only [trimBounds, mod_eq_of_lt hrange, mod_eq_of_lt hwrap, if_pos hwrap,
      if_neg hdata]
    rcases eq_or_lt_of_le hle with rfl | hlt'
    · simp only [gt_iff_lt, lt_self_iff_false, if_false, le_refl, not_true_eq_false, hlt]
    · simp only [if_pos (show mc.data + szB > addr + szB by omega), hle, hlt, not_true_eq_false,
        if_false, if_neg (show ¬ ¬ addr + szB ≤ mc.data + szB by omega)]
  · have hend : (mc.data + szB) % 2 ^ 64 = mc.data + szB - 2 ^ 64 := by omega
    have hgt : ¬ mc.data + szB - 2 ^ 64 > addr + szB := by omega
    have hlo : ¬ mc.data < mc.data + szB - 2 ^ 64 := by omega
    simp only [trimBounds, mod_eq_of_lt hrange, hend, hdata, hgt, hwrap, if_false, hlo,
      not_false_eq_true, if_true, ite_self]

/-- The bytes a chunk across the start of the range loses. -/
theorem trimBytes_of_crossesStart (hc : mc.CrossesStart addr szB)
    (hlt : addr < mc.data + szB) (m : ByteMap) (hx : x < 2 ^ 64) :
    trimBytes addr szB ⟨mc.data, addr, mc.data + szB, addr + szB⟩ m x =
      if mc.data ≤ x ∧ x < addr ∨ mc.data + szB ≤ x ∧ x < addr + szB then .noaccess else m x := by
  obtain ⟨hd, hend, hle⟩ := hc
  have hmin : ¬ ExtentContains addr szB mc.data := by rw [extentContains_iff hrange]; omega
  have hmax : ¬ ExtentContains addr szB (addr + szB) := by rw [extentContains_iff hrange]; omega
  have hhi : mc.data + szB < addr + szB := by omega
  simp only [trimBytes, hd, hmin, hmax, hhi, not_false_eq_true, and_self, if_true]
  rw [makeMemNoaccess_apply (by omega) hx, makeMemNoaccess_apply (by omega) hx]
  split_ifs <;> first | rfl | omega

/-- …and one across its end. -/
theorem trimBytes_of_crossesEnd (hc : mc.CrossesEnd addr szB) (hwrap : mc.data + szB < 2 ^ 64)
    (m : ByteMap) (hx : x < 2 ^ 64) :
    trimBytes addr szB ⟨addr, mc.data, addr + szB, mc.data + szB⟩ m x =
      if addr + szB ≤ x ∧ x < mc.data + szB then .noaccess else m x := by
  obtain ⟨hle, hlt, -⟩ := hc
  have hmin : ExtentContains addr szB addr := by rw [extentContains_iff hrange]; omega
  have hmax : ¬ ExtentContains addr szB (mc.data + szB) := by rw [extentContains_iff hrange]; omega
  simp only [trimBytes, hmin, hmax, not_true_eq_false, and_false, if_false, not_false_eq_true,
    and_true]
  by_cases hstart : addr + szB < mc.data + szB
  · rw [if_pos hstart, makeMemNoaccess_apply (by omega) hx]
    split_ifs <;> first | rfl | omega
  · rw [if_neg hstart, if_neg (by omega)]

/-- What becomes of a chunk. -/
def Chunk.outcome (addr szB : ℕ) (mc : Chunk) : Except Abort (Option Chunk) :=
  if ExtentContains addr szB mc.data ∧ ExtentContains addr szB mc.last then .ok (some mc)
  else if ¬ ExtentContains addr szB mc.data ∧ ¬ ExtentContains addr szB mc.last then .ok none
  else do
    let b ← trimBounds addr szB mc
    return some { mc with data := b.lo, szB := (b.hi - b.lo) % 2 ^ 32 }

theorem outcome_of_within (h : mc.Ok) (hin : mc.Within addr szB) :
    mc.outcome addr szB = .ok (some mc) := by
  rw [outcome, if_pos (contains_of_within hrange h hin)]

theorem outcome_of_deleted (h : mc.Ok) (hout : mc.Deleted addr szB) :
    mc.outcome addr szB = .ok none := by
  have hn := not_contains_of_deleted hrange h hout
  rw [outcome, if_neg (fun hc => hn.1 hc.1), if_pos hn]

theorem outcome_of_crossesStart (h : mc.Ok) (hc : mc.CrossesStart addr szB) :
    mc.outcome addr szB =
      if addr < mc.data + szB then
        .ok (some { mc with data := addr, szB := (mc.data + szB - addr) % 2 ^ 32 })
      else .error .assertion := by
  have hone := contains_one_of_crosses hrange h (.inl hc)
  rw [outcome, if_neg hone.1, if_neg hone.2, trimBounds_of_crossesStart hrange hc]
  split_ifs <;> rfl

theorem outcome_of_crossesEnd (h : mc.Ok) (hc : mc.CrossesEnd addr szB) :
    mc.outcome addr szB =
      if mc.data + szB < 2 ^ 64 then
        .ok (some { mc with szB := (addr + szB - mc.data) % 2 ^ 32 })
      else .error .assertion := by
  have hone := contains_one_of_crosses hrange h (.inr hc)
  rw [outcome, if_neg hone.1, if_neg hone.2, trimBounds_of_crossesEnd hrange hc]
  split_ifs <;> rfl

/-- What is left of a chunk begins in it. -/
theorem outcome_data (h : mc.Ok) {r : Chunk} (hr : mc.outcome addr szB = .ok (some r)) :
    mc.data ≤ r.data ∧ r.data < mc.data + mc.szB := by
  have hpos := h.pos
  rcases h.position addr szB with ⟨hin, -⟩ | ⟨hout, -⟩ | ⟨hc, -⟩ | ⟨hc, -⟩
  · rw [outcome_of_within hrange h hin] at hr
    cases hr
    omega
  · rw [outcome_of_deleted hrange h hout] at hr
    cases hr
  · rw [outcome_of_crossesStart hrange h hc] at hr
    obtain ⟨hd, hend, -⟩ := hc
    split_ifs at hr
    cases hr
    exact ⟨hd.le, hend⟩
  · rw [outcome_of_crossesEnd hrange h hc] at hr
    split_ifs at hr
    cases hr
    exact ⟨le_rfl, Nat.lt_add_of_pos_right hpos⟩

omit hrange

/-! ## One turn of the loop -/

variable {o : Options} {rzB : ℕ} {rest table done : List Chunk} {h : Heap}

/-- A turn that fails. -/
theorem loop_cons_error (hmem : mc ∈ table) (huniq : ∀ c ∈ table, c.data = mc.data → c = mc)
    {e : Abort} (he : mc.outcome addr szB = .error e) :
    mempoolTrimLoop addr szB o rzB (mc :: rest) table h = .error e := by
  obtain ⟨table', hrem, -⟩ := htRemove_eq hmem huniq
  rw [outcome] at he
  rw [mempoolTrimLoop]
  split_ifs at he ⊢
  simp only [hrem]
  cases hb : trimBounds addr szB mc with
  | error e' =>
    rw [hb, error_bind] at he
    rw [error_bind]
    cases he
    rfl
  | ok b =>
    rw [hb] at he
    cases he

/-- A turn that cuts its chunk. -/
theorem loop_cons_cut {c : Chunk} {table' : List Chunk} {b : TrimBounds}
    (hin : ¬ (ExtentContains addr szB mc.data ∧ ExtentContains addr szB mc.last))
    (hout : ¬ (¬ ExtentContains addr szB mc.data ∧ ¬ ExtentContains addr szB mc.last))
    (hrem : htRemove table mc.data = some (c, table')) (hb : trimBounds addr szB mc = .ok b) :
    mempoolTrimLoop addr szB o rzB (mc :: rest) table h =
      mempoolTrimLoop addr szB o rzB rest
        ({ mc with data := b.lo, szB := (b.hi - b.lo) % 2 ^ 32 } :: table')
        { h with bytes := trimBytes addr szB b h.bytes } := by
  rw [mempoolTrimLoop, if_neg hin, if_neg hout, hrem]
  simp only [hb, ok_bind]

/-- A turn that succeeds replaces the chunk by what becomes of it. -/
theorem loop_cons_ok (hrange : addr + szB < 2 ^ 64) (hrz : rzB < 2 ^ 32) (hmc : mc.Ok)
    (hperm : table.Perm (done ++ mc :: rest))
    (huniq : ∀ c ∈ table, c.data = mc.data → c = mc) {r : Option Chunk}
    (hr : mc.outcome addr szB = .ok r) :
    ∃ table' h', mempoolTrimLoop addr szB o rzB (mc :: rest) table h =
        mempoolTrimLoop addr szB o rzB rest table' h' ∧
      table'.Perm ((done ++ r.toList) ++ rest) ∧
      ∀ x < 2 ^ 64, h'.bytes x = .noaccess ↔
        h.bytes x = .noaccess ∨ mc.Marks addr szB rzB x := by
  obtain ⟨table', hrem, hperm'⟩ := htRemove_eq (hperm.mem_iff.mpr (by simp)) huniq
  have hrest : table'.Perm (done ++ rest) :=
    (hperm'.symm.trans (hperm.trans perm_middle)).cons_inv
  have hnew (c : Chunk) : (c :: table').Perm ((done ++ [c]) ++ rest) := by
    simpa using (hrest.cons c).trans perm_middle.symm
  rcases hmc.position addr szB with ⟨hin, hd, hs, he⟩ | ⟨hout, hs, he⟩ | ⟨hc, hd, he⟩ | ⟨hc, hd, hs⟩
  · rw [outcome_of_within hrange hmc hin] at hr
    cases hr
    refine ⟨table, h, ?_, by simpa using hperm, fun x _ => ?_⟩
    · rw [mempoolTrimLoop, if_pos (contains_of_within hrange hmc hin)]
    · simp only [Chunk.Marks, hd, hs, he, false_and, or_false]
  · rw [outcome_of_deleted hrange hmc hout] at hr
    cases hr
    have hn := not_contains_of_deleted hrange hmc hout
    refine ⟨table', h.dieAndFreeMem o mc rzB, ?_, by simpa using hrest, fun x _ => ?_⟩
    · rw [mempoolTrimLoop, if_neg (fun hc => hn.1 hc.1), if_pos hn, hrem]
    · have := hmc.szB_lt
      simp only [Chunk.Marks, hout, hs, he, true_and, false_and, or_false]
      rw [Heap.bytes_dieAndFreeMem, makeMemNoaccess,
        setRange, mod_eq_of_lt (show mc.szB + 2 * rzB < 2 ^ 64 by omega)]
      exact ite_noaccess_iff
  · have hone := contains_one_of_crosses hrange hmc (.inl hc)
    rw [outcome_of_crossesStart hrange hmc hc] at hr
    split_ifs at hr with hlt
    cases hr
    have hb := trimBounds_of_crossesStart hrange hc
    rw [if_pos hlt] at hb
    refine ⟨_, _, loop_cons_cut hone.1 hone.2 hrem hb, hnew _, fun x hx => ?_⟩
    simp only [Chunk.Marks, hc, hd, he, true_and, false_and, false_or, or_false]
    rw [trimBytes_of_crossesStart hrange hc hlt h.bytes hx]
    exact ite_noaccess_iff
  · have hone := contains_one_of_crosses hrange hmc (.inr hc)
    rw [outcome_of_crossesEnd hrange hmc hc] at hr
    split_ifs at hr with hwrap
    cases hr
    have hb := trimBounds_of_crossesEnd hrange hc
    rw [if_pos hwrap] at hb
    refine ⟨_, _, loop_cons_cut hone.1 hone.2 hrem hb, hnew _, fun x hx => ?_⟩
    simp only [Chunk.Marks, hc, hd, hs, true_and, false_and, false_or]
    rw [trimBytes_of_crossesEnd hrange hc hwrap h.bytes hx]
    exact ite_noaccess_iff

end One

/-! ## The loop -/

section Loop

variable {addr szB rzB : ℕ} {o : Options}

/-- The chunks still to be looked at are in the table, each alone at its address. -/
structure LoopInv (done rest table : List Chunk) : Prop where
  perm : table.Perm (done ++ rest)
  ok : ∀ mc ∈ rest, mc.Ok
  apart : rest.Pairwise Chunk.Apart
  done_ne : ∀ r ∈ done, ∀ c ∈ rest, r.data ≠ c.data

variable {done rest table : List Chunk} {mc : Chunk} {h : Heap}

theorem LoopInv.mem (hi : LoopInv done (mc :: rest) table) : mc ∈ table :=
  hi.perm.mem_iff.mpr (by simp)

theorem LoopInv.unique (hi : LoopInv done (mc :: rest) table) :
    ∀ c ∈ table, c.data = mc.data → c = mc := by
  intro c hc heq
  rcases mem_append.mp (hi.perm.mem_iff.mp hc) with hd | hr
  · exact absurd heq (hi.done_ne c hd mc (by simp))
  rcases mem_cons.mp hr with rfl | hr
  · rfl
  have hmc := (hi.ok mc (by simp)).pos
  have hcp := (hi.ok c (by simp [hr])).pos
  have hap : mc.Apart c := (pairwise_cons.mp hi.apart).1 c hr
  simp only [Chunk.Apart] at hap
  omega

/-- After a turn. -/
theorem LoopInv.next (hrange : addr + szB < 2 ^ 64) (hi : LoopInv done (mc :: rest) table)
    {r : Option Chunk} (hr : mc.outcome addr szB = .ok r) {table' : List Chunk}
    (hperm : table'.Perm ((done ++ r.toList) ++ rest)) :
    LoopInv (done ++ r.toList) rest table' where
  perm := hperm
  ok c hc := hi.ok c (by simp [hc])
  apart := (pairwise_cons.mp hi.apart).2
  done_ne r' hr' c hc := by
    rcases mem_append.mp hr' with hd | hd
    · exact hi.done_ne r' hd c (by simp [hc])
    · obtain rfl := Option.mem_toList.mp hd
      have hdata := outcome_data hrange (hi.ok mc (by simp)) hr
      have hpos := (hi.ok c (by simp [hc])).pos
      have hap : mc.Apart c := (pairwise_cons.mp hi.apart).1 c hc
      simp only [Chunk.Apart] at hap
      omega

/-- A loop that returns has an outcome for each chunk. -/
theorem outcome_of_loop (hrange : addr + szB < 2 ^ 64) (hrz : rzB < 2 ^ 32)
    (hi : LoopInv done rest table) {p : List Chunk × Heap}
    (hp : mempoolTrimLoop addr szB o rzB rest table h = .ok p) :
    ∀ mc ∈ rest, ∃ r, mc.outcome addr szB = .ok r := by
  induction rest generalizing done table h with
  | nil => simp
  | cons mc rest ih =>
    cases hout : mc.outcome addr szB with
    | error e =>
      rw [loop_cons_error hi.mem hi.unique hout] at hp
      cases hp
    | ok r =>
      obtain ⟨table', h', heq, hperm, -⟩ :=
        loop_cons_ok (h := h) (o := o) hrange hrz (hi.ok mc (by simp)) hi.perm hi.unique hout
      rw [heq] at hp
      intro c hc
      rcases mem_cons.mp hc with rfl | hc
      · exact ⟨r, hout⟩
      · exact ih (hi.next hrange hout hperm) hp c hc

/-- With an outcome for each chunk the loop returns: the table has what becomes of the chunks, and
the bytes that trimming marks are noaccess. -/
theorem loop_ok (hrange : addr + szB < 2 ^ 64) (hrz : rzB < 2 ^ 32) {res : Chunk → Option Chunk}
    (hi : LoopInv done rest table) (hres : ∀ mc ∈ rest, mc.outcome addr szB = .ok (res mc)) :
    ∃ table' h', mempoolTrimLoop addr szB o rzB rest table h = .ok (table', h') ∧
      table'.Perm (done ++ rest.filterMap res) ∧
      ∀ x < 2 ^ 64, h'.bytes x = .noaccess ↔
        h.bytes x = .noaccess ∨ ∃ mc ∈ rest, mc.Marks addr szB rzB x := by
  induction rest generalizing done table h with
  | nil => exact ⟨table, h, rfl, by simpa using hi.perm, by simp⟩
  | cons mc rest ih =>
    have hout := hres mc (by simp)
    obtain ⟨table', h', heq, hperm, hbytes⟩ :=
      loop_cons_ok (h := h) (o := o) hrange hrz (hi.ok mc (by simp)) hi.perm hi.unique hout
    obtain ⟨table'', h'', hloop, hperm', hbytes'⟩ := ih (h := h') (hi.next hrange hout hperm)
      fun c hc => hres c (by simp [hc])
    refine ⟨table'', h'', heq.trans hloop, ?_, fun x hx => ?_⟩
    · cases hr : res mc with
      | none | some r => simpa [filterMap_cons, hr] using hperm'
    · rw [hbytes' x hx, hbytes x hx]
      simp [or_assoc]

end Loop

/-! ## What becomes of a chunk, and what should -/

section Inter

variable {addr szB : ℕ} {mc : Chunk}

/-- What a chunk shares with the range begins in the chunk. -/
theorem inter_data {r : Chunk} (hr : mc.inter addr szB = some r) :
    mc.data ≤ r.data ∧ r.data < mc.data + mc.szB := by
  simp only [inter] at hr
  split_ifs at hr with hlt
  cases hr
  simp only
  omega

theorem inter_eq {lo n : ℕ} (hlo : max mc.data addr = lo) (hn : 0 < n)
    (hhi : min (mc.data + mc.szB) (addr + szB) = lo + n) :
    mc.inter addr szB = some { mc with data := lo, szB := n } := by
  subst hlo
  rw [inter, hhi, if_pos (Nat.lt_add_of_pos_right hn), Nat.add_sub_cancel_left]

theorem inter_of_within (h : mc.Ok) (hin : mc.Within addr szB) : mc.inter addr szB = some mc :=
  inter_eq (max_eq_left hin.1) h.pos (min_eq_left hin.2)

theorem inter_of_outside (hout : mc.Outside addr szB) : mc.inter addr szB = none := by
  simp only [Chunk.Outside] at hout
  simp only [inter]
  rw [if_neg (by omega)]

theorem inter_of_around (hsz : 0 < szB) (hc : mc.Around addr szB) :
    mc.inter addr szB = some { mc with data := addr, szB := szB } :=
  inter_eq (max_eq_right hc.1.le) hsz (min_eq_right hc.2.le)

theorem inter_of_crossesStart (hc : mc.CrossesStart addr szB) :
    mc.inter addr szB = some { mc with data := addr, szB := mc.data + mc.szB - addr } := by
  obtain ⟨hlo, hlt, hhi⟩ := hc
  exact inter_eq (max_eq_right hlo.le) (by omega) (by omega)

theorem inter_of_crossesEnd (hc : mc.CrossesEnd addr szB) :
    mc.inter addr szB = some { mc with szB := addr + szB - mc.data } := by
  obtain ⟨hlo, hlt, hhi⟩ := hc
  exact inter_eq (max_eq_left hlo) (by omega) (by omega)

/-- **One chunk**: it becomes what it shares with the range iff it does not lie around the range,
and across an end the sizes agree. -/
theorem outcome_eq_inter_iff (hrange : addr + szB < 2 ^ 64) (hsz : 0 < szB) (h : mc.Ok) :
    mc.outcome addr szB = .ok (mc.inter addr szB) ↔
      ¬ mc.Around addr szB ∧
      (mc.CrossesStart addr szB → addr < mc.data + szB ∧ szB % 2 ^ 32 = mc.szB % 2 ^ 32 ∧
        mc.data + mc.szB < addr + 2 ^ 32) ∧
      (mc.CrossesEnd addr szB → mc.data + szB < 2 ^ 64 ∧ addr + szB < mc.data + 2 ^ 32) := by
  rcases h.position addr szB with ⟨hin, hd, hs, he⟩ | ⟨hout | har, hs, he⟩ | ⟨hc, hd, he⟩ | ⟨hc, hd, hs⟩
  · simp [outcome_of_within hrange h hin, inter_of_within h hin, not_or.mp hd, hs, he]
  · have hnar : ¬ mc.Around addr szB := by
      simp only [Chunk.Outside, Chunk.Around] at hout ⊢
      omega
    simp [outcome_of_deleted hrange h (.inl hout), inter_of_outside hout, hnar, hs, he]
  · simp [outcome_of_deleted hrange h (.inr har), inter_of_around hsz har, har]
  · have hp := hc
    simp only [Chunk.CrossesStart] at hp
    rw [outcome_of_crossesStart hrange h hc, inter_of_crossesStart hc]
    simp only [(not_or.mp hd).2, he, hc, not_false_eq_true, true_and, forall_true_left,
      IsEmpty.forall_iff, and_true]
    split_ifs with hlt
    · simp only [Except.ok.injEq, Option.some.injEq, mk.injEq, true_and, and_true, hlt]
      omega
    · simp only [hlt, false_and]
  · have hp := hc
    simp only [Chunk.CrossesEnd] at hp
    rw [outcome_of_crossesEnd hrange h hc, inter_of_crossesEnd hc]
    simp only [(not_or.mp hd).2, hs, hc, not_false_eq_true, true_and, forall_true_left,
      IsEmpty.forall_iff]
    split_ifs with hlt
    · simp only [Except.ok.injEq, Option.some.injEq, mk.injEq, true_and, and_true, hlt]
      omega
    · simp only [hlt, false_and]

end Inter

/-! ## The pool -/

section Pool

variable {addr szB : ℕ} {mp : Mempool} {o : Options} {h : Heap}

/-- Chunks that share a byte are one. -/
theorem Mempool.Ok.eq_of_shared (hok : mp.Ok) {c c' : Chunk} (hc : c ∈ mp.chunks)
    (hc' : c' ∈ mp.chunks) {x : ℕ} (hx : c.data ≤ x ∧ x < c.data + c.szB)
    (hx' : c'.data ≤ x ∧ x < c'.data + c'.szB) : c = c' := by
  by_contra hne
  have hap : c.Apart c' := hok.apart.forall hc hc' hne
  simp only [Chunk.Apart] at hap
  omega

theorem Mempool.Ok.loopInv (hok : mp.Ok) : LoopInv [] mp.chunks mp.chunks :=
  ⟨List.Perm.refl _, hok.chunk, hok.apart, by simp⟩

/-- What is left of all chunks is what they share with the range iff that is so of each. -/
theorem Mempool.Ok.filterMap_perm_iff (hok : mp.Ok) (hrange : addr + szB < 2 ^ 64)
    {res : Chunk → Option Chunk} (hres : ∀ mc ∈ mp.chunks, mc.outcome addr szB = .ok (res mc)) :
    (mp.chunks.filterMap res).Perm (mp.chunks.filterMap (Chunk.inter addr szB)) ↔
      ∀ mc ∈ mp.chunks, res mc = mc.inter addr szB := by
  refine ⟨fun hperm mc hmc => ?_, fun heq => by rw [filterMap_congr heq]⟩
  have hresData : ∀ c ∈ mp.chunks, ∀ r, res c = some r →
      c.data ≤ r.data ∧ r.data < c.data + c.szB := fun c hc r hr =>
    outcome_data hrange (hok.chunk c hc) (by rw [hres c hc, hr])
  cases hi : mc.inter addr szB with
  | some i =>
    -- the intersection is left of a chunk, and that chunk is this one
    obtain ⟨c, hc, hr⟩ := mem_filterMap.mp
      (hperm.mem_iff.mpr (mem_filterMap.mpr ⟨mc, hmc, hi⟩))
    rw [hok.eq_of_shared hmc hc (inter_data hi) (hresData c hc i hr), hr]
  | none =>
    by_contra hne
    obtain ⟨r, hr⟩ := Option.ne_none_iff_exists'.mp hne
    obtain ⟨c, hc, hi'⟩ := mem_filterMap.mp
      (hperm.mem_iff.mp (mem_filterMap.mpr ⟨mc, hmc, hr⟩))
    rw [← hok.eq_of_shared hc hmc (inter_data hi') (hresData mc hmc r hr), hi'] at hi
    cases hi

/-- **Trimming one pool.** -/
theorem trimLoop_exact_iff (hok : mp.Ok) (hrange : addr + szB < 2 ^ 64) (hsz : 0 < szB) :
    (∃ new h', mempoolTrimLoop addr szB o mp.rzB mp.chunks mp.chunks h = .ok (new, h') ∧
      TrimmedTo addr szB mp.chunks h new h') ↔ TrimOk addr szB mp h := by
  constructor
  · rintro ⟨new, h', hloop, htrim⟩
    choose! res hres using outcome_of_loop hrange hok.rzB_lt hok.loopInv hloop
    obtain ⟨new', h'', hloop', hperm, hbytes⟩ :=
      loop_ok (o := o) (h := h) hrange hok.rzB_lt hok.loopInv hres
    obtain ⟨rfl, rfl⟩ : new' = new ∧ h'' = h' := by simpa [hloop] using hloop'.symm
    have hinter : ∀ mc ∈ mp.chunks, mc.outcome addr szB = .ok (mc.inter addr szB) := by
      intro mc hmc
      rw [hres mc hmc,
        (hok.filterMap_perm_iff hrange hres).mp (hperm.symm.trans htrim.chunks) mc hmc]
    have hone := fun mc hmc =>
      (outcome_eq_inter_iff hrange hsz (hok.chunk mc hmc)).mp (hinter mc hmc)
    refine ⟨fun mc hmc => (hone mc hmc).1, fun mc hmc => (hone mc hmc).2.1,
      fun mc hmc => (hone mc hmc).2.2, fun x hlo hhi hm => ?_, fun mc hmc hc x hlo _ hhi => ?_⟩
    · rw [← htrim.inside x hlo hhi]
      exact (hbytes x (by omega)).mpr (.inr hm)
    · have hwrap := (hok.chunk mc hmc).no_wrap
      obtain ⟨h1, -, -⟩ := hc
      exact (hbytes x (by omega)).mp (htrim.outside mc hmc x (by omega) hhi (by omega))
  · intro ht
    have hinter : ∀ mc ∈ mp.chunks, mc.outcome addr szB = .ok (mc.inter addr szB) := fun mc hmc =>
      (outcome_eq_inter_iff hrange hsz (hok.chunk mc hmc)).mpr
        ⟨ht.around mc hmc, ht.crossesStart mc hmc, ht.crossesEnd mc hmc⟩
    obtain ⟨new, h', hloop, hperm, hbytes⟩ :=
      loop_ok (o := o) (h := h) hrange hok.rzB_lt hok.loopInv hinter
    refine ⟨new, h', hloop, hperm, fun mc hmc x hlo hhi hx => ?_, fun x hlo hhi => ?_⟩
    · have hmok := hok.chunk mc hmc
      have hrz := hok.rzB_lt
      have hwrap := hmok.no_wrap
      have hlt := hmok.szB_lt
      rw [hbytes x (by omega)]
      rcases hmok.position addr szB with ⟨hin, -⟩ | ⟨hout | har, -⟩ | ⟨hc, -⟩ | ⟨hc, -⟩
      · simp only [Chunk.Within] at hin
        omega
      · refine .inr ⟨mc, hmc, .inl ⟨.inl hout, ?_⟩⟩
        rw [InRange, distance]
        omega
      · exact absurd har (ht.around mc hmc)
      · refine .inr ⟨mc, hmc, .inr (.inl ⟨hc, ?_⟩)⟩
        simp only [Chunk.CrossesStart] at hc
        omega
      · have hp := hc
        simp only [Chunk.CrossesEnd] at hp
        by_cases hz : mc.data + szB ≤ x
        · exact ht.tail mc hmc hc x (by omega) hz hhi
        · exact .inr ⟨mc, hmc, .inr (.inr ⟨hc, by omega⟩)⟩
    · rw [hbytes x (by omega)]
      exact ⟨fun hb => hb.elim id (ht.range x hlo hhi), .inl⟩

theorem find?_setChunks {pools : List Mempool} {pool : ℕ} {chunks : List Chunk}
    (hfind : pools.find? (fun mp => mp.pool = pool) = some mp) :
    (setChunks pool chunks pools).find? (fun mp => mp.pool = pool) =
      some { mp with chunks := chunks } := by
  induction pools with
  | nil => cases hfind
  | cons mp' pools ih =>
    rw [find?_cons] at hfind
    by_cases hp : mp'.pool = pool
    · simp only [hp, decide_true, Option.some.injEq] at hfind
      subst hfind
      simp [setChunks, hp]
    · simp only [hp, decide_false] at hfind
      simpa [setChunks, hp] using ih hfind

/-- **Trimming leaves exactly the intersections iff `TrimOk`.** -/
theorem mempoolTrim_exact_iff {pools : List Mempool} {pool : ℕ}
    (hfind : pools.find? (fun mp => mp.pool = pool) = some mp) (hok : mp.Ok)
    (hrange : addr + szB < 2 ^ 64) (hsz : 0 < szB) :
    (∃ pools' mp' h', mempoolTrim addr szB o pools h pool = .ok (pools', h') ∧
      pools'.find? (fun mp => mp.pool = pool) = some mp' ∧
      TrimmedTo addr szB mp.chunks h mp'.chunks h') ↔ TrimOk addr szB mp h := by
  rw [← trimLoop_exact_iff (o := o) (h := h) hok hrange hsz]
  simp only [mempoolTrim, hfind]
  constructor
  · rintro ⟨pools', mp', h', heq, hfind', htrim⟩
    obtain ⟨⟨new, h''⟩, hloop, hret⟩ := bind_eq_ok.mp heq
    cases hret
    rw [find?_setChunks hfind] at hfind'
    cases hfind'
    exact ⟨new, h'', hloop, htrim⟩
  · rintro ⟨new, h', hloop, htrim⟩
    refine ⟨_, _, h', ?_, find?_setChunks hfind, htrim⟩
    rw [hloop]
    rfl

end Pool

/-! ## On examples -/

/-- A pool with one chunk. -/
def onePool (data szB : ℕ) : Mempool := ⟨0x1000, 16, [⟨data, szB, .custom⟩]⟩

/-- A heap in which only the bytes of that chunk are accessible. -/
def oneHeap (data szB : ℕ) : Heap :=
  { mallocList := [], freedBig := [], freedSmall := [], freeQueueVolume := 0, freeQueueLength := 0,
    bytes := fun x => if data ≤ x ∧ x < data + szB then .defined else .noaccess
    reports := [], released := [] }

/-- The options' defaults. -/
def defaultOptions : Options := ⟨20000000, 1000000, true, 16⟩

/-- A chunk across the start of a range of its size. -/
theorem mempoolTrim_exact_iff_start :
    TrimOk 0x1010 0x40 (onePool 0x1000 0x40) (oneHeap 0x1000 0x40) ∧
    ∃ pools' mp' h', mempoolTrim 0x1010 0x40 defaultOptions [onePool 0x1000 0x40]
        (oneHeap 0x1000 0x40) 0x1000 = .ok (pools', h') ∧
      pools'.find? (fun mp => mp.pool = 0x1000) = some mp' ∧
      TrimmedTo 0x1010 0x40 (onePool 0x1000 0x40).chunks (oneHeap 0x1000 0x40) mp'.chunks h' := by
  have hok : (onePool 0x1000 0x40).Ok :=
    ⟨by decide, by simp only [onePool, mem_singleton, forall_eq]; exact ⟨by decide, by decide,
      by decide⟩, by simp [onePool]⟩
  refine (and_iff_left_of_imp
    (mempoolTrim_exact_iff (by rfl) hok (by decide) (by decide)).mpr).mpr ⟨?_, ?_, ?_, ?_, ?_⟩
  · simp [onePool, Chunk.Around]
  · simp [onePool, Chunk.CrossesStart]
  · simp [onePool, Chunk.CrossesEnd]
  · simp only [onePool, mem_singleton, exists_eq_left, Chunk.Marks, oneHeap]
    rintro x hlo hhi (⟨hp, -⟩ | ⟨-, hx⟩ | ⟨hp, -⟩)
    · simp [Chunk.Outside, Chunk.Around] at hp
    · rw [if_neg (by omega)]
    · simp [Chunk.CrossesEnd] at hp
  · simp [onePool, Chunk.CrossesEnd]

/-- A chunk around the range is deleted, and of a chunk that begins with the range the bytes behind
the range stay accessible. -/
theorem mempoolTrim_around_and_tail :
    (mempoolTrim 0x1010 0x10 defaultOptions [onePool 0x1000 0x40] (oneHeap 0x1000 0x40) 0x1000).map
        (fun p => p.1.map Mempool.chunks) = .ok [[]] ∧
      (onePool 0x1000 0x40).chunks.filterMap (Chunk.inter 0x1010 0x10) =
        [⟨0x1010, 0x10, .custom⟩] ∧
      (mempoolTrim 0x1000 0x10 defaultOptions [onePool 0x1000 0x40] (oneHeap 0x1000 0x40)
        0x1000).map (fun p => p.2.bytes 0x1020) = .ok .defined := by
  decide +kernel

end Valgrind.Memcheck
