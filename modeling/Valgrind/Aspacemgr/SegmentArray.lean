import Valgrind.Aspacemgr.NSegment
import Valgrind.Foundations.Refinement

/-!
# Aspacemgr/SegmentArray — `m_aspacemgr/aspacemgr-linux.c`: the array `nsegments`

The used part of the array is a list of segments that tiles the addresses.  An update splits
segments at both ends of a range, replaces those between, and preens: it merges neighbours in place.

**On a tiling** (`splitNsegmentAt_segs`, `preenNsegments_segs`, `addSegment_segs`): a call that
returns leaves the segments as cutting and joining of pieces does.  That it returns is the matter of
`Aspacemgr/NameCounts`.
-/

namespace Valgrind.Aspacemgr

open NSegment Tiling List Nat Except Piece

/-- `VG_N_SEGMENTS`. -/
def nSegments : ℕ := 30000

/-- The used part of `nsegments`, and the table of names. -/
structure Aspacem where
  segs : List NSegment
  names : Segnames
deriving DecidableEq, Repr

/-! ## The code -/

/-- `nsegments[i]`; what stands behind the used part is not described. -/
def nsegmentAt (l : List NSegment) (i : ℕ) : Except Abort NSegment :=
  match l[i]? with
  | some s => .ok s
  | none => .error .assertion

/-- The segments from index `iLo` to `iHi`. -/
def slice (l : List NSegment) (iLo iHi : ℕ) : List NSegment := (l.drop iLo).take (iHi + 1 - iLo)

/-- `find_nsegment_idx`, as `find_nsegment_idx_WRK` does it; the cache in front of it compares an
entry with the array before use. -/
def findNsegmentIdx (l : List NSegment) (a : ℕ) : Except Abort ℕ := do
  let i ← Bisection.bisect
    (fun mid => do
      let s ← nsegmentAt l mid.toNat
      return if a < s.start then .lt else if a > s.stop then .gt else .eq)
    (.panic "find_nsegment_idx: not found") 0 (l.length - 1)
  return i.toNat

namespace Aspacem

/-- Slide the segments behind index `i` up, and put both halves of a segment there. -/
def splitSegment (st : Aspacem) (i : ℕ) (s : NSegment) (a : ℕ) : Except Abort Aspacem := do
  let names ← st.names.amIncRefcount s.fnIdx
  vgAssert (saneNSegment names (s.split a).1)
  vgAssert (saneNSegment names (s.split a).2)
  return ⟨st.segs.take i ++ (s.split a).1 :: (s.split a).2 :: st.segs.drop (i + 1), names⟩

/-- `split_nsegment_at`. -/
def splitNsegmentAt (st : Aspacem) (a : ℕ) : Except Abort Aspacem := do
  vgAssert (0 < a)
  vgAssert (a % pageSize = 0)
  let i ← findNsegmentIdx st.segs a
  let s ← nsegmentAt st.segs i
  if s.start = a then return st
  else if st.segs.length ≥ nSegments then .error (.panic "VG_N_SEGMENTS")
  else st.splitSegment i s a

/-- The indices that `split_nsegments_lo_and_hi` returns, with its assertions. -/
def loAndHi (st : Aspacem) (sLo sHi : ℕ) : Except Abort (Aspacem × ℕ × ℕ) := do
  let iLo ← findNsegmentIdx st.segs sLo
  let iHi ← findNsegmentIdx st.segs sHi
  vgAssert (iLo ≤ iHi)
  let lo ← nsegmentAt st.segs iLo
  let hi ← nsegmentAt st.segs iHi
  vgAssert (lo.start = sLo)
  vgAssert (hi.stop = sHi)
  return (st, iLo, iHi)

/-- The lower split of `split_nsegments_lo_and_hi`… -/
def splitLo (st : Aspacem) (sLo : ℕ) : Except Abort Aspacem :=
  if 0 < sLo then st.splitNsegmentAt sLo else .ok st

/-- …and the upper one. -/
def splitHi (st : Aspacem) (sHi : ℕ) : Except Abort Aspacem :=
  if sHi < (sHi + 1) % 2 ^ 64 then st.splitNsegmentAt (sHi + 1) else .ok st

/-- `split_nsegments_lo_and_hi`. -/
def splitNsegmentsLoAndHi (st : Aspacem) (sLo sHi : ℕ) : Except Abort (Aspacem × ℕ × ℕ) := do
  vgAssert (sLo < sHi)
  vgAssert (sLo % pageSize = 0)
  vgAssert ((sHi + 1) % pageSize = 0)
  let st ← st.splitLo sLo
  let st ← st.splitHi sHi
  st.loAndHi sLo sHi

/-- Pass 1 of `preen_nsegments`: the array covers the address space once, and is sane. -/
def covers (st : Aspacem) : Bool :=
  st.segs.head?.any (·.start = 0) && st.segs.getLast?.any (·.stop = 2 ^ 64 - 1)
    && st.segs.all (saneNSegment st.names)
    && decide (st.segs.IsChain fun s1 s2 => (s1.stop + 1) % 2 ^ 64 = s2.start)

end Aspacem

/-- Pass 2 of `preen_nsegments`: `s` is the segment at the write index, and the list is what is
still to be read. -/
def preenMerge (t : Segnames) (s : NSegment) :
    List NSegment → Except Abort (List NSegment × Segnames)
  | [] => .ok ([s], t)
  | r :: l => do
    let (m, t) ← maybeMergeNsegments t s r
    match m with
    | some u => preenMerge t u l
    | none => do
      let (l, t) ← preenMerge t r l
      return (s :: l, t)

namespace Aspacem

/-- `preen_nsegments`. -/
def preenNsegments (st : Aspacem) : Except Abort Aspacem := do
  vgAssert st.covers
  match st.segs with
  | [] => return st
  | s :: l => do
    let (segs, names) ← preenMerge st.names s l
    return ⟨segs, names⟩

end Aspacem

/-- The loop of `add_segment` that gives up the names of the segments it replaces. -/
def decRefcounts (t : Segnames) : List NSegment → Except Abort Segnames
  | [] => .ok t
  | s :: l => do
    let t ← t.amDecRefcount s.fnIdx
    decRefcounts t l

/-- `add_segment`. -/
def Aspacem.addSegment (st : Aspacem) (seg : NSegment) : Except Abort Aspacem := do
  vgAssert (seg.start ≤ seg.stop)
  vgAssert (seg.start % pageSize = 0)
  vgAssert ((seg.stop + 1) % pageSize = 0)
  vgAssert (saneNSegment st.names seg)
  let (st, iLo, iHi) ← st.splitNsegmentsLoAndHi seg.start seg.stop
  let names ← st.names.amIncRefcount seg.fnIdx
  let names ← decRefcounts names (slice st.segs iLo iHi)
  preenNsegments ⟨st.segs.take iLo ++ seg :: st.segs.drop (iHi + 1), names⟩

/-! ## What a call that returns leaves -/

section Segs

open Aspacem

variable {l l₁ l₂ m : List NSegment} {s seg : NSegment} {t t' : Segnames} {st st' : Aspacem}
  {a b x p lo hi iLo iHi : ℕ}

theorem nsegmentAt_append (l r : List NSegment) (s : NSegment) :
    nsegmentAt (l ++ s :: r) l.length = .ok s := by
  simp [nsegmentAt]

theorem drop_succ_append (l r : List NSegment) (s : NSegment) :
    (l ++ s :: r).drop (l.length + 1) = r := by
  rw [drop_length_add_append, drop_one, tail_cons]

theorem drop_append_length {iHi : ℕ} (hm : iHi + 1 = l.length + m.length) :
    (l ++ (m ++ l₂)).drop (iHi + 1) = l₂ := by
  rw [hm, ← append_assoc, ← length_append, drop_left]

theorem slice_append (l m r : List NSegment) (hm : iHi + 1 = l.length + m.length) :
    slice (l ++ (m ++ r)) l.length iHi = m := by
  rw [slice, drop_left, hm, Nat.add_sub_cancel_left, take_left]

theorem nsegmentAt_side {i : ℕ} (hget : l[i]? = some s) :
    (do
      let s ← nsegmentAt l (i : ℤ).toNat
      return if x < s.start then Ordering.lt else if x > s.stop then .gt else .eq)
        = Except.ok (side x s) := by
  rw [Int.toNat_natCast, nsegmentAt, hget]
  rfl

/-- **`find_nsegment_idx` returns the index of the segment around an address.** -/
theorem findNsegmentIdx_eq (h : Tiles a (l₁ ++ s :: l₂) b) (hlo : s.start ≤ x) (hhi : x ≤ s.stop) :
    findNsegmentIdx (l₁ ++ s :: l₂) x = .ok l₁.length := by
  have hlen : ((l₁ ++ s :: l₂).length : ℤ) = l₁.length + l₂.length + 1 := by
    simp
    omega
  rw [findNsegmentIdx, h.bisect_eq hlo hhi (fun i t => nsegmentAt_side) _ (by omega) (by omega),
    ok_bind, Int.toNat_natCast, pure_eq_ok]

/-- An address at which the search ends lies in the segment it found. -/
theorem findNsegmentIdx_ok (h : Tiles 0 l b) {i : ℕ} (hok : findNsegmentIdx l x = .ok i) :
    x < b ∧ ∃ l₁ s l₂, l = l₁ ++ s :: l₂ ∧ i = l₁.length ∧ s.start ≤ x ∧ x ≤ s.stop := by
  have hx : x < b := by
    by_contra hge
    rw [findNsegmentIdx, Bisection.bisect_eq_notFound _ fun j h0 hj => .inr ?_] at hok
    · cases hok
    lift j to ℕ using h0
    have hj' : j < l.length := by omega
    have hbound := h.bounds l[j] (getElem_mem hj')
    rw [nsegmentAt_side (getElem?_eq_getElem hj'), side, if_neg (by omega), if_pos (by omega)]
  obtain ⟨l₁, s, l₂, rfl, -, hlo, hhi, -⟩ := h.exists_piece zero_le hx
  rw [findNsegmentIdx_eq h hlo hhi] at hok
  exact ⟨hx, l₁, s, l₂, rfl, (ok.inj hok).symm, hlo, hhi⟩

/-- A split inside a segment. -/
theorem splitNsegmentAt_inside (h : Tiles a (l₁ ++ s :: l₂) b) (hlo : s.start < p)
    (hhi : p ≤ s.stop) (hp : p % pageSize = 0) (t : Segnames) :
    splitNsegmentAt ⟨l₁ ++ s :: l₂, t⟩ p
      = if (l₁ ++ s :: l₂).length ≥ nSegments then .error (.panic "VG_N_SEGMENTS")
        else do
          let names ← t.amIncRefcount s.fnIdx
          vgAssert (saneNSegment names (s.split p).1)
          vgAssert (saneNSegment names (s.split p).2)
          return ⟨cut split p (l₁ ++ s :: l₂), names⟩ := by
  rw [splitNsegmentAt, vgAssert_bind (zero_lt_of_lt hlo), vgAssert_bind hp,
    findNsegmentIdx_eq h hlo.le hhi, ok_bind, nsegmentAt_append, ok_bind, if_neg hlo.ne,
    splitSegment, take_left, drop_succ_append, cut_inside h hlo hhi]

/-- A split where a segment starts. -/
theorem splitNsegmentAt_start (h : Tiles a (l₁ ++ s :: l₂) b) (hs : s.start = p)
    (hle : s.start ≤ s.stop) (hpos : 0 < p) (hp : p % pageSize = 0) (t : Segnames) :
    splitNsegmentAt ⟨l₁ ++ s :: l₂, t⟩ p = .ok ⟨cut split p (l₁ ++ s :: l₂), t⟩ := by
  rw [splitNsegmentAt, vgAssert_bind hpos, vgAssert_bind hp,
    findNsegmentIdx_eq h hs.le (hs ▸ hle), ok_bind, nsegmentAt_append, ok_bind, if_pos hs,
    cut_start h hs, pure_eq_ok]

/-- **`split_nsegment_at` cuts the segments.** -/
theorem splitNsegmentAt_segs (h : Tiles 0 l b) (hok : splitNsegmentAt ⟨l, t⟩ p = .ok st) :
    st.segs = cut split p l ∧ p % pageSize = 0 := by
  have hpage : 0 < p ∧ p % pageSize = 0 := by
    rw [splitNsegmentAt, vgAssert_bind_eq_ok, vgAssert_bind_eq_ok] at hok
    exact ⟨hok.1, hok.2.1⟩
  have hfind : ∃ i, findNsegmentIdx l p = .ok i := by
    rw [splitNsegmentAt, vgAssert_bind hpage.1, vgAssert_bind hpage.2] at hok
    obtain ⟨i, hi, -⟩ := bind_eq_ok.mp hok
    exact ⟨i, hi⟩
  obtain ⟨i, hfind⟩ := hfind
  obtain ⟨-, l₁, s, l₂, rfl, -, hlo, hhi⟩ := findNsegmentIdx_ok h hfind
  refine ⟨?_, hpage.2⟩
  rcases eq_or_lt_of_le hlo with hs | hlt
  · rw [splitNsegmentAt_start h hs (hlo.trans hhi) hpage.1 hpage.2] at hok
    rw [← ok.inj hok]
  · rw [splitNsegmentAt_inside h hlt hhi hpage.2] at hok
    split_ifs at hok
    obtain ⟨names, -, hok⟩ := bind_eq_ok.mp hok
    rw [vgAssert_bind_eq_ok, vgAssert_bind_eq_ok] at hok
    rw [← ok.inj hok.2.2]

/-- The segments, cut at both ends of a range. -/
def carve (lo hi : ℕ) (l : List NSegment) : List NSegment := cut split (hi + 1) (cut split lo l)

/-- A property that passes to the halves of segments, split at a page. -/
theorem forall_mem_carve {P : NSegment → Prop}
    (hP : ∀ s p, s.start < p → p ≤ s.stop → p % pageSize = 0 → P s →
      P (s.split p).1 ∧ P (s.split p).2)
    (hlo : lo % pageSize = 0) (hhi : (hi + 1) % pageSize = 0) (h : ∀ s ∈ l, P s) :
    ∀ s ∈ carve lo hi l, P s :=
  forall_mem_cut (fun s h₁ h₂ => hP s (hi + 1) h₁ h₂ hhi)
    (forall_mem_cut (fun s h₁ h₂ => hP s lo h₁ h₂ hlo) h)

/-- Cutting leaves the segments in front of the range, those of the range, and those behind. -/
theorem carve_spec (h : Tiles 0 l b) (hle : lo ≤ hi) (hhi : hi < b) :
    ∃ l₁ m l₂, carve lo hi l = l₁ ++ (m ++ l₂) ∧ Tiles 0 l₁ lo ∧ Tiles lo m (hi + 1)
      ∧ Tiles (hi + 1) l₂ b := by
  obtain ⟨l₁, r, hcut, h₁, hr⟩ := isSplit.tiles_cut (p := lo) h zero_le (by omega)
  obtain ⟨m, l₂, hcut₂, hm, h₂⟩ := isSplit.tiles_cut (p := hi + 1) hr (by omega) (by omega)
  exact ⟨l₁, m, l₂, by rw [carve, hcut, cut_append h₁ (by omega), hcut₂], h₁, hm, h₂⟩

theorem length_carve_le (lo hi : ℕ) (l : List NSegment) :
    (carve lo hi l).length ≤ l.length + 2 := by
  have h₁ := length_cut_le split lo l
  have h₂ := length_cut_le split (hi + 1) (cut split lo l)
  rw [carve]
  omega

/-- A range inside one segment is one segment after cutting. -/
theorem carve_inside (h : Tiles 0 l b) (hs : s ∈ l) (hlo : s.start ≤ lo) (hle : lo ≤ hi)
    (hhi : hi ≤ s.stop) :
    ∃ l₁ s' l₂, carve lo hi l = l₁ ++ s' :: l₂ ∧ s'.start = lo ∧ s'.stop = hi
      ∧ s'.kind = s.kind := by
  obtain ⟨r₁, r₂, rfl⟩ := append_of_mem hs
  obtain ⟨p, h₁, hp, hsle, h₂⟩ := tiles_append.mp h
  have hp : s.start = p := hp
  -- The cut at `lo` leaves a piece `s₁` of `s` that starts there.
  obtain ⟨r, s₁, hcut, hr, hs₁, hstop, hkind⟩ : ∃ r s₁, cut split lo (r₁ ++ s :: r₂) = r ++ s₁ :: r₂
      ∧ Tiles 0 r lo ∧ s₁.start = lo ∧ s₁.stop = s.stop ∧ s₁.kind = s.kind := by
    rw [cut_append h₁ (hp ▸ hlo), cut]
    split_ifs with hfirst hlast
    · have hfirst : lo ≤ s.start := hfirst
      exact ⟨r₁, s, rfl, (show p = lo by omega) ▸ h₁, by omega, rfl, rfl⟩
    · have hfirst : ¬ lo ≤ s.start := hfirst
      refine ⟨r₁ ++ [(s.split lo).1], (s.split lo).2, by simp, h₁.append ⟨hp, ?_, ?_⟩, rfl, rfl,
        rfl⟩
      · change s.start ≤ lo - 1
        omega
      · change lo - 1 + 1 = lo
        omega
    · exact absurd (show lo ≤ last s from hle.trans hhi) hlast
  rw [carve, hcut, cut_append hr (by omega), cut]
  split_ifs with hfirst hlast
  · have hfirst : hi + 1 ≤ s₁.start := hfirst
    omega
  · exact ⟨r, (s₁.split (hi + 1)).1, _, rfl, hs₁, rfl, hkind⟩
  · have hlast : ¬ hi + 1 ≤ s₁.stop := hlast
    exact ⟨r, s₁, _, rfl, hs₁, by omega, hkind⟩

/-- The first and the last segment of a range are found by the addresses there. -/
theorem loAndHi_eq (h : Tiles 0 (l₁ ++ (m ++ l₂)) b) (hm : Tiles lo m (hi + 1)) (hle : lo ≤ hi)
    (t : Segnames) :
    ∃ iHi, iHi + 1 = l₁.length + m.length ∧ findNsegmentIdx (l₁ ++ (m ++ l₂)) lo = .ok l₁.length
      ∧ findNsegmentIdx (l₁ ++ (m ++ l₂)) hi = .ok iHi
      ∧ loAndHi ⟨l₁ ++ (m ++ l₂), t⟩ lo hi
        = .ok (⟨l₁ ++ (m ++ l₂), t⟩, l₁.length, iHi) := by
  obtain ⟨s, r, hsr, hs, hsle⟩ := hm.exists_head (by omega)
  obtain ⟨r', s', hrs, hsle', hs'⟩ := hm.exists_last (by omega)
  have hfirst : findNsegmentIdx (l₁ ++ (m ++ l₂)) lo = .ok l₁.length
      ∧ nsegmentAt (l₁ ++ (m ++ l₂)) l₁.length = .ok s := by
    rw [hsr, cons_append] at h ⊢
    exact ⟨findNsegmentIdx_eq h hs.le (hs ▸ hsle), nsegmentAt_append _ _ _⟩
  have hlast : findNsegmentIdx (l₁ ++ (m ++ l₂)) hi = .ok (l₁ ++ r').length
      ∧ nsegmentAt (l₁ ++ (m ++ l₂)) (l₁ ++ r').length = .ok s' := by
    have hl : l₁ ++ (m ++ l₂) = (l₁ ++ r') ++ s' :: l₂ := by simp [hrs]
    have hstop : s'.stop + 1 = hi + 1 := hs'
    have hsle' : s'.start ≤ s'.stop := hsle'
    rw [hl] at h ⊢
    exact ⟨findNsegmentIdx_eq h (by omega) (by omega), nsegmentAt_append _ _ _⟩
  refine ⟨(l₁ ++ r').length, by simp [hrs, add_assoc], hfirst.1, hlast.1, ?_⟩
  rw [loAndHi, hfirst.1, ok_bind, hlast.1, ok_bind, vgAssert_bind (by simp), hfirst.2,
    ok_bind, hlast.2, ok_bind, vgAssert_bind (show s.start = lo from hs),
    vgAssert_bind (show s'.stop = hi from succ.inj hs'), pure_eq_ok]

theorem splitLo_segs (h : Tiles 0 l b)
    (hok : splitLo ⟨l, t⟩ lo = .ok st) : st.segs = cut split lo l := by
  rw [splitLo] at hok
  split_ifs at hok with hpos
  · exact (splitNsegmentAt_segs h hok).1
  · obtain rfl : lo = 0 := Nat.eq_zero_of_not_pos hpos
    rw [cut_of_tiles h, ← ok.inj hok]

theorem splitHi_segs (h : Tiles 0 l (2 ^ 64))
    (hok : splitHi ⟨l, t⟩ hi = .ok st) : st.segs = cut split (hi + 1) l := by
  rw [splitHi] at hok
  split_ifs at hok with hlast
  · exact (splitNsegmentAt_segs h hok).1
  · have hend : 2 ^ 64 ≤ hi + 1 := by
      by_contra hlt
      rw [mod_eq_of_lt (lt_of_not_ge hlt)] at hlast
      exact hlast (lt_succ_self hi)
    rw [cut_of_le h hend, ← ok.inj hok]

/-- **`split_nsegments_lo_and_hi` cuts the segments at both ends**, and returns where the segments
of the range are. -/
theorem splitNsegmentsLoAndHi_segs (h : Tiles 0 l (2 ^ 64))
    (hok : splitNsegmentsLoAndHi ⟨l, t⟩ lo hi = .ok (st, iLo, iHi)) :
    lo < hi ∧ hi < 2 ^ 64 ∧ lo % pageSize = 0 ∧ (hi + 1) % pageSize = 0 ∧ ∃ l₁ m l₂,
      carve lo hi l = l₁ ++ (m ++ l₂) ∧ st.segs = l₁ ++ (m ++ l₂) ∧ Tiles 0 l₁ lo
      ∧ Tiles lo m (hi + 1) ∧ Tiles (hi + 1) l₂ (2 ^ 64)
      ∧ iLo = l₁.length ∧ iHi + 1 = l₁.length + m.length
      ∧ findNsegmentIdx st.segs lo = .ok iLo ∧ findNsegmentIdx st.segs hi = .ok iHi := by
  rw [splitNsegmentsLoAndHi, vgAssert_bind_eq_ok, vgAssert_bind_eq_ok,
    vgAssert_bind_eq_ok] at hok
  obtain ⟨hle, hlo, hhi', hok⟩ := hok
  obtain ⟨st₁, h₁, hok⟩ := bind_eq_ok.mp hok
  obtain ⟨st₂, h₂, hok⟩ := bind_eq_ok.mp hok
  have hsegs₁ := splitLo_segs h h₁
  have htiles₁ : Tiles 0 st₁.segs (2 ^ 64) := hsegs₁ ▸ isSplit.tiles h zero_le
  have hsegs₂ := splitHi_segs htiles₁ h₂
  have htiles₂ : Tiles 0 st₂.segs (2 ^ 64) := hsegs₂ ▸ isSplit.tiles htiles₁ zero_le
  have hhi : hi < 2 ^ 64 := by
    rw [loAndHi] at hok
    obtain ⟨i, -, hok⟩ := bind_eq_ok.mp hok
    obtain ⟨j, hj, -⟩ := bind_eq_ok.mp hok
    exact (findNsegmentIdx_ok htiles₂ hj).1
  obtain ⟨l₁, m, l₂, hcarve, ht₁, htm, ht₂⟩ := carve_spec h hle.le hhi
  have hsegs : st₂.segs = l₁ ++ (m ++ l₂) := by rw [hsegs₂, hsegs₁, ← hcarve, carve]
  obtain ⟨iHi', hlen, hfLo, hfHi, heq⟩ :=
    loAndHi_eq (ht₁.append (htm.append ht₂)) htm hle.le st₂.names
  rw [← hsegs] at hfLo hfHi heq
  obtain ⟨rfl, rfl, rfl⟩ : st₂ = st ∧ l₁.length = iLo ∧ iHi' = iHi := by
    simpa using ok.inj (heq.symm.trans hok)
  exact ⟨hle, hhi, hlo, hhi', l₁, m, l₂, hcarve, hsegs, ht₁, htm, ht₂, rfl, hlen, hfLo, hfHi⟩

/-- One round of pass 2 of preening, and what it may go on with. -/
theorem preenMerge_cons (h : Tiles a (s :: r :: l) b) (hb : b ≤ 2 ^ 64) (t : Segnames) :
    Tiles (s.stop + 1) (r :: l) b ∧ Tiles s.start (joined s r :: l) b
      ∧ preenMerge t s (r :: l) = match merge s r with
        | none => do
          let (l, t) ← preenMerge t r l
          return (s :: l, t)
        | some u => mergeNames t s >>= fun t => preenMerge t u l := by
  obtain ⟨rfl, hs, hr, hrle, hrest⟩ := h
  have hs : s.start ≤ s.stop := hs
  have hr : r.start = s.stop + 1 := hr
  have hrle : r.start ≤ r.stop := hrle
  have hend : r.stop + 1 ≤ b := hrest.le
  refine ⟨⟨hr, hrle, hrest⟩, ⟨rfl, show s.start ≤ r.stop by omega, hrest⟩, ?_⟩
  rw [preenMerge, maybeMergeNsegments_eq t hs hrle hr.symm (by omega)]
  cases merge s r with
  | none => rfl
  | some u => cases mergeNames t s <;> rfl

/-- **Pass 2 of preening joins the segments.** -/
theorem preenMerge_segs (h : Tiles a (s :: l) b) (hb : b ≤ 2 ^ 64)
    (hok : preenMerge t s l = .ok (m, t')) : m = coalesce merge (s :: l) := by
  induction l generalizing a s t m t' with
  | nil =>
    cases hok
    rw [coalesce]
  | cons r l ih =>
    obtain ⟨htail, hjoined, heq⟩ := preenMerge_cons h hb t
    rw [heq] at hok
    rw [coalesce]
    cases hm : merge s r with
    | none =>
      rw [hm] at hok
      obtain ⟨⟨m', t''⟩, hok', hm'⟩ := bind_eq_ok.mp hok
      obtain ⟨rfl, -⟩ := Prod.mk.inj (ok.inj hm')
      rw [ih htail hok']
    | some u =>
      obtain ⟨hjoin, rfl⟩ := merge_eq_some.mp hm
      rw [hm] at hok
      obtain ⟨t₁, -, hok⟩ := bind_eq_ok.mp hok
      exact ih hjoined hok

theorem preenNsegments_segs (h : Tiles 0 st.segs (2 ^ 64)) (hok : st.preenNsegments = .ok st') :
    st'.segs = coalesce merge st.segs ∧ ∀ s ∈ st.segs, saneNSegment st.names s := by
  obtain ⟨s, l, hl, -⟩ := h.exists_head (by norm_num)
  rw [preenNsegments, vgAssert_bind_eq_ok, hl] at hok
  obtain ⟨hcovers, hok⟩ := hok
  obtain ⟨⟨segs, names⟩, hmerge, hst⟩ := bind_eq_ok.mp hok
  rw [hl] at h
  rw [← ok.inj hst, hl]
  simp only [covers, Bool.and_eq_true, all_eq_true] at hcovers
  exact ⟨preenMerge_segs h le_rfl hmerge, hl ▸ hcovers.1.2⟩

/-- The segments from `lo` to `hi` are replaced by others, and neighbours joined. -/
structure Replaces (lo hi : ℕ) (mid : List NSegment → List NSegment) (l l' : List NSegment) :
    Prop where
  lo_page : lo % pageSize = 0
  hi_page : (hi + 1) % pageSize = 0
  parts : ∃ l₁ m l₂, carve lo hi l = l₁ ++ (m ++ l₂) ∧ Tiles 0 l₁ lo ∧ Tiles lo m (hi + 1)
    ∧ Tiles lo (mid m) (hi + 1) ∧ Tiles (hi + 1) l₂ (2 ^ 64)
    ∧ l' = coalesce merge (l₁ ++ (mid m ++ l₂))

/-- One segment replaces those of its range. -/
abbrev Added (seg : NSegment) (l l' : List NSegment) : Prop :=
  Replaces seg.start seg.stop (fun _ => [seg]) l l'

/-- **`add_segment` puts a segment in the place of those of its range**, and joins neighbours. -/
theorem addSegment_segs (h : Tiles 0 st.segs (2 ^ 64)) (hok : st.addSegment seg = .ok st') :
    saneNSegment st.names seg ∧ Added seg st.segs st'.segs := by
  rw [addSegment, vgAssert_bind_eq_ok, vgAssert_bind_eq_ok, vgAssert_bind_eq_ok,
    vgAssert_bind_eq_ok] at hok
  obtain ⟨hle, hpLo, hpHi, hsane, hok⟩ := hok
  obtain ⟨⟨st₁, iLo, iHi⟩, hsplit, hok⟩ := bind_eq_ok.mp hok
  obtain ⟨-, -, -, -, l₁, m, l₂, hcarve, hsegs, h₁, hm, h₂, rfl, hiHi, -⟩ :=
    splitNsegmentsLoAndHi_segs h hsplit
  obtain ⟨t₁, -, hok⟩ := bind_eq_ok.mp hok
  obtain ⟨t₂, -, hok⟩ := bind_eq_ok.mp hok
  rw [hsegs, take_left, drop_append_length hiHi] at hok
  have hseg : Tiles seg.start [seg] (seg.stop + 1) := ⟨rfl, hle, rfl⟩
  have htiles : Tiles 0 (l₁ ++ seg :: l₂) (2 ^ 64) := h₁.append (hseg.append h₂)
  exact ⟨hsane, hpLo, hpHi, l₁, m, l₂, hcarve, h₁, hm, hseg, h₂,
    (preenNsegments_segs htiles hok).1⟩

namespace Replaces

variable {l' : List NSegment} {mid : List NSegment → List NSegment}

/-- The array still covers the address space once. -/
theorem tiles (h : Replaces lo hi mid l l') : Tiles 0 l' (2 ^ 64) := by
  obtain ⟨l₁, m, l₂, -, h₁, -, hmid, h₂, rfl⟩ := h.parts
  exact isMerge.tiles_coalesce (h₁.append (hmid.append h₂))

theorem hi_lt (h : Replaces lo hi mid l l') : hi < 2 ^ 64 := by
  obtain ⟨l₁, m, l₂, -, -, -, -, h₂, -⟩ := h.parts
  exact h₂.le

theorem length_le (h : Added seg l l') : l'.length ≤ l.length + 2 := by
  obtain ⟨l₁, m, l₂, hcarve, -, hm, hseg, -, rfl⟩ := h.parts
  have hlen := length_carve_le seg.start seg.stop l
  have hjoin := length_coalesce_le merge (l₁ ++ ([seg] ++ l₂))
  have hpos : 0 < m.length := by
    have hlt : seg.start ≤ seg.stop := hseg.2.1
    obtain ⟨s, r, rfl, -⟩ := hm.exists_head (by omega)
    exact succ_pos _
  rw [hcarve] at hlen
  simp only [length_append, length_cons, length_nil] at hlen hjoin ⊢
  omega

/-- No two neighbours can be merged. -/
theorem canonical (h : Replaces lo hi mid l l') : l'.IsChain fun s1 s2 => merge s1 s2 = none := by
  obtain ⟨l₁, m, l₂, -, -, -, -, -, rfl⟩ := h.parts
  exact (isChain_coalesce isMerge _).1

/-- **What a replacement keeps**: a property that passes to the halves of segments, and in its new
form to merged ones, holds afterwards if it holds of the new segments. -/
theorem forall_mem {P P' : NSegment → Prop} (h : Replaces lo hi mid l l')
    (hsplit : ∀ s p, s.start < p → p ≤ s.stop → p % pageSize = 0 → P s →
      P (s.split p).1 ∧ P (s.split p).2)
    (hout : ∀ s, s.stop < lo ∨ hi < s.start → P s → P' s)
    (hmid : ∀ m, Tiles lo m (hi + 1) → (∀ s ∈ m, P s) → ∀ s ∈ mid m, P' s)
    (hmerge : ∀ s1 s2 u, merge s1 s2 = some u → s1.start ≤ s1.stop → s1.stop + 1 = s2.start →
      P' s1 → P' s2 → P' u)
    (hl : ∀ s ∈ l, P s) : ∀ s ∈ l', P' s := by
  obtain ⟨l₁, m, l₂, hcarve, h₁, hm, hmid', h₂, rfl⟩ := h.parts
  have hall : ∀ s ∈ l₁ ++ (m ++ l₂), P s :=
    hcarve ▸ forall_mem_carve hsplit h.lo_page h.hi_page hl
  obtain ⟨hP₁, hP⟩ := forall_mem_append.mp hall
  obtain ⟨hPm, hP₂⟩ := forall_mem_append.mp hP
  refine forall_mem_coalesce isMerge hmerge (h₁.append (hmid'.append h₂))
    (forall_mem_append.mpr ⟨fun s hs => hout s (.inl (h₁.bounds s hs).2.2) (hP₁ s hs),
      forall_mem_append.mpr ⟨hmid m hm hPm, fun s hs => ?_⟩⟩)
  exact hout s (.inr (h₂.bounds s hs).1) (hP₂ s hs)

/-- **What a replacement does to the facts of pages.** -/
theorem denotes {f f' : ℕ → PageFacts} (h : Replaces lo hi mid l l') (hf : Denotes view l f)
    (hout : ∀ x, x < lo ∨ hi < x → f' x = f x)
    (hmid : ∀ m, Tiles lo m (hi + 1) → Denotes view m f → Denotes view (mid m) f') :
    Denotes view l' f' := by
  refine h.forall_mem (P := fun s => ∀ x, first s ≤ x → x ≤ last s → view s x = f x)
    (fun s p hlo hhi _ hs => ⟨fun x hx hx' => ?_, fun x hx hx' => ?_⟩) (fun s hs hf x hx hx' => ?_)
    hmid (fun s1 s2 u hu hle hadj h1 h2 x hx hx' => ?_) hf
  · have hlast : last (s.split p).1 + 1 = p := isSplit.last_fst s p hlo hhi
    rw [isSplit.view_fst s p x hlo hhi hx (by omega)]
    have hx : s.start ≤ x := hx
    exact hs x hx (show x ≤ s.stop by omega)
  · have hx : p ≤ x := hx
    rw [isSplit.view_snd s p x hlo hhi hx hx']
    exact hs x (show s.start ≤ x by omega) hx'
  · have hx₁ : s.start ≤ x := hx
    have hx₂ : x ≤ s.stop := hx'
    rw [hf x hx hx', hout x (by omega)]
  · have hfirst : first u = s1.start := isMerge.first_eq hu
    have hlast : last u = s2.stop := isMerge.last_eq hu
    by_cases hxs : x ≤ s1.stop
    · rw [isMerge.view_left hu hadj (show s1.start ≤ x by omega) hxs]
      exact h1 x (show s1.start ≤ x by omega) hxs
    · rw [isMerge.view_right hu hadj (show s2.start ≤ x by omega) (show x ≤ s2.stop by omega)]
      exact h2 x (show s2.start ≤ x by omega) (show x ≤ s2.stop by omega)

end Replaces

end Segs

/-! ## The cache in front of the search

It is never invalidated: an entry is compared with the array before use. -/

/-- An array that covers the address space once. -/
abbrev Partition := {l : List NSegment // Tiles 0 l (2 ^ 64)}

/-- `cache_inited`, `cache_pageno` and `cache_segidx`. -/
structure IdxCache where
  inited : Bool := false
  pageno : Fin 131 → ℕ := fun _ => 0
  segidx : Fin 131 → ℤ := fun _ => 0

/-- The address lies in the segment. -/
def around (a : ℕ) (s : NSegment) : Bool := s.start ≤ a ∧ a ≤ s.stop

/-- `find_nsegment_idx`. -/
def findCached (l : List NSegment) (c : IdxCache) (a : ℕ) : Except Abort (ℤ × IdxCache) :=
  let c := if c.inited then c else { inited := true, segidx := fun _ => -1 }
  let ix := Fin.ofNat 131 (a >>> 12)
  if a >>> 12 = c.pageno ix ∧ 0 ≤ c.segidx ix ∧ l[(c.segidx ix).toNat]?.any (around a) then
    .ok (c.segidx ix, c)
  else do
    let i ← findNsegmentIdx l a
    return (i, { c with pageno := Function.update c.pageno ix (a >>> 12)
                        segidx := Function.update c.segidx ix i })

/-- A search for an address, or any change of the array. -/
inductive Query
  | find (a : Fin (2 ^ 64))
  | change (l : Partition)

def Query.step (s : Partition × IdxCache) : Query → Except Abort (Option ℤ × Partition × IdxCache)
  | .find a => do
    let (i, c) ← findCached s.1 s.2 a
    return (some i, s.1, c)
  | .change l => .ok (none, l, s.2)

/-- What a query is for: the first segment around the address. -/
def Query.act (l : Partition) : Query → Option ℤ × Partition
  | .find a => (some (l.1.findIdx (around a)), l)
  | .change l' => (none, l')

/-- The search ends at the one segment around the address. -/
theorem findNsegmentIdx_around {l : List NSegment} {a : ℕ} (h : Tiles 0 l (2 ^ 64))
    (ha : a < 2 ^ 64) : findNsegmentIdx l a = .ok (l.findIdx (around a))
      ∧ ∀ i : ℕ, l[i]?.any (around a) ↔ i = l.findIdx (around a) := by
  obtain ⟨l₁, s, l₂, rfl, -, hlo, hhi, -⟩ := h.exists_piece zero_le ha
  have hlo : s.start ≤ a := hlo
  have hhi : a ≤ s.stop := hhi
  have hs : around a s := decide_eq_true ⟨hlo, hhi⟩
  have hone (i : ℕ) : (l₁ ++ s :: l₂)[i]?.any (around a) ↔ i = l₁.length := by
    refine ⟨fun hi => ?_, fun hi => by simp [hi, hs]⟩
    obtain ⟨t, ht, hta⟩ := (Option.any_eq_true _ _).mp hi
    have hta := of_decide_eq_true hta
    exact (h.index_eq hlo hhi ht hta.1 hta.2).symm
  have hidx : (l₁ ++ s :: l₂).findIdx (around a) = l₁.length := by
    have hlt := findIdx_lt_length_of_exists ⟨s, mem_append_right l₁ (.head l₂), hs⟩
    refine (hone _).mp ?_
    rw [getElem?_eq_getElem hlt, Option.any_some]
    exact findIdx_getElem
  rw [hidx]
  exact ⟨findNsegmentIdx_eq h hlo hhi, hone⟩

/-- **The cache does not show**: from any contents of the cache, every search in any run of
searches and changes of the array returns the only index of a segment around the address, which is
what the search without the cache returns. -/
theorem cache_transparent (l : Partition) (c : IdxCache) (qs : List Query) :
    (∃ c', Refinement.run Query.step (l, c) qs = .ok ((Refinement.absRun Query.act l qs).1,
      (Refinement.absRun Query.act l qs).2, c'))
    ∧ ∀ (l : Partition) (a : Fin (2 ^ 64)), findNsegmentIdx l a = .ok (l.1.findIdx (around a))
      ∧ ∀ i : ℕ, l.1[i]?.any (around a) ↔ i = l.1.findIdx (around a) := by
  refine ⟨?_, fun l a => findNsegmentIdx_around l.2 a.2⟩
  have hstep : Refinement.Refines Query.step Query.act (fun _ _ _ => True) (fun s l => s.1 = l) := by
    rintro ⟨l, c⟩ _ (a | l') rfl -
    · obtain ⟨hfind, hone⟩ := findNsegmentIdx_around l.2 a.2
      suffices ∃ c', findCached l c a = .ok (l.1.findIdx (around a), c') by
        obtain ⟨c', hc'⟩ := this
        exact ⟨(l, c'), by rw [Query.step, hc']; rfl, rfl⟩
      rw [findCached]
      generalize (if c.inited then c else _) = c
      -- Whatever the entry says, it is used only if the segment it names is around `a`.
      split_ifs with hhit
      · refine ⟨_, congrArg ok (Prod.ext ?_ rfl)⟩
        rw [← (hone _).mp hhit.2.2, Int.toNat_of_nonneg hhit.2.1]
      · exact ⟨_, by rw [hfind, ok_bind, pure_eq_ok]⟩
    · exact ⟨(l', c), rfl, rfl⟩
  obtain ⟨⟨_, c'⟩, hrun, rfl⟩ := hstep.run rfl (Refinement.admits_of_forall fun _ _ => trivial)
  exact ⟨c', hrun⟩

end Valgrind.Aspacemgr
