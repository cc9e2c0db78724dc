import Valgrind.Aspacemgr.Notify

/-!
# Aspacemgr/Steps — what an operation on the segment array can do

`Change` lists it: an operation that fails leaves the array, and one that succeeds replaces segments
of its range by others.  `step_change` says that nothing else happens, on an array that covers the
address space once; what is proved of a `Change` holds of every operation that returns. -/

namespace Valgrind.Aspacemgr

open NSegment Tiling List Except Nat

/-- The array of an address space in which nothing is mapped. -/
def unmapped : Aspacem := ⟨[{ stop := 2 ^ 64 - 1 }], .amSegnamesInit⟩

theorem tiles_unmapped : Tiles 0 unmapped.segs (2 ^ 64) := ⟨rfl, zero_le, rfl⟩

theorem sane_unmapped : ∀ s ∈ unmapped.segs, saneNSegment unmapped.names s :=
  forall_mem_singleton.mpr (by decide)

section

variable {l₁ l₂ : List NSegment} {s r : NSegment} {b c : ℕ}
  (h : Tiles 0 (l₁ ++ s :: r :: l₂) (2 ^ 64))
include h

/-- Neighbours meet. -/
theorem neighbours : s.start ≤ s.stop ∧ r.start = s.stop + 1 ∧ r.start ≤ r.stop := by
  obtain ⟨p, -, -, hs, hadj, hr, -⟩ := tiles_append.mp h
  exact ⟨hs, hadj, hr⟩

/-- The boundary between neighbours may be moved. -/
theorem tiles_resize (hs : s.start ≤ b) (hc : c = b + 1) (hr : c ≤ r.stop) :
    Tiles 0 (l₁ ++ { s with stop := b } :: { r with start := c } :: l₂) (2 ^ 64) := by
  obtain ⟨p, h₁, hp, -, -, -, h₂⟩ := tiles_append.mp h
  exact h₁.append ⟨hp, hs, hc, hr, h₂⟩

end

section Look

variable {l l₁ l₂ : List NSegment} {s : NSegment} {a b i start len : ℕ} {d : Bool}

/-- The segments between the first and the last of a range are those that meet it. -/
theorem mem_slice {r₁ r₂ : List NSegment} {s₁ s₂ t : NSegment} {y z : ℕ}
    (h : Tiles 0 l b) (h₁ : l = l₁ ++ s₁ :: l₂) (h₂ : l = r₁ ++ s₂ :: r₂)
    (hlo₁ : s₁.start ≤ y) (hhi₁ : y ≤ s₁.stop) (hlo₂ : s₂.start ≤ z) (hhi₂ : z ≤ s₂.stop) :
    t ∈ slice l l₁.length r₁.length ↔ t ∈ l ∧ y ≤ t.stop ∧ t.start ≤ z := by
  have hindex : ∀ {i : ℕ}, l[i]? = some t →
      (l₁.length ≤ i ↔ y ≤ t.stop) ∧ (i ≤ r₁.length ↔ t.start ≤ z) := by
    intro i hget
    constructor
    · subst h₁
      exact (h.index_iff hlo₁ hhi₁ hget).1
    · subst h₂
      exact (h.index_iff hlo₂ hhi₂ hget).2
  rw [slice, mem_iff_getElem?, mem_iff_getElem?]
  constructor
  · rintro ⟨k, hget⟩
    rw [getElem?_take] at hget
    split_ifs at hget with hk
    rw [getElem?_drop] at hget
    exact ⟨⟨_, hget⟩, (hindex hget).1.mp (by omega), (hindex hget).2.mp (by omega)⟩
  · rintro ⟨⟨i, hget⟩, hy, hz⟩
    have hlower := (hindex hget).1.mpr hy
    have hupper := (hindex hget).2.mpr hz
    refine ⟨i - l₁.length, ?_⟩
    rw [getElem?_take_of_lt (by omega), getElem?_drop, Nat.add_sub_cancel' hlower, hget]

/-- **`any_Ts_in_range` misses no mark**: a range it accepts does not wrap, and a marked segment
that meets it makes it answer True. -/
theorem anyTsInRange_ok (h : Tiles 0 l (2 ^ 64)) (hok : anyTsInRange l start len = .ok d) :
    0 < len ∧ start + len < 2 ^ 64
      ∧ ∀ s ∈ l, s.hasT → s.start < start + len → start ≤ s.stop → d = true := by
  rw [anyTsInRange, vgAssert_bind_eq_ok, vgAssert_bind_eq_ok] at hok
  obtain ⟨hpos, hwrap, hok⟩ := hok
  obtain ⟨iLo, hLo, hok⟩ := bind_eq_ok.mp hok
  obtain ⟨iHi, hHi, hok⟩ := bind_eq_ok.mp hok
  obtain ⟨-, l₁, s₁, l₂, hl₁, rfl, hlo₁, hhi₁⟩ := findNsegmentIdx_ok h hLo
  obtain ⟨hlast, r₁, s₂, r₂, hl₂, rfl, hlo₂, hhi₂⟩ := findNsegmentIdx_ok h hHi
  have hfit : start + len < 2 ^ 64 := by
    have hle : start + len ≤ 2 ^ 64 := by omega
    refine lt_of_le_of_ne hle fun heq => ?_
    rw [heq, mod_self] at hwrap
    exact absurd hwrap (not_lt_zero _)
  refine ⟨hpos, hfit, fun s hs hT hstart hstop => ?_⟩
  rw [← ok.inj hok, any_eq_true]
  exact ⟨s, (mem_slice h hl₁ hl₂ hlo₁ hhi₁ hlo₂ hhi₂).mpr ⟨hs, hstop, by omega⟩, hT⟩

end Look

/-! ## The list of changes -/

open Aspacem in
/-- What an operation makes of the segments `l`. -/
inductive Change (lim : Limits) (l : List NSegment) : Op → Reply → List NSegment → Prop
  | failed {op : Op} : Change lim l op ⟨false, false⟩ l
  | mmapAnon {a len prot flags offset fd d l'} (hanon : mapAnonymous flags)
      (hd : anyTsInRange l a len = .ok d) (hadd : Added (plainSegment .anonC a len prot) l l') :
      Change lim l (.mmap a len prot flags offset fd) ⟨true, d⟩ l'
  | mmapFile {a len prot flags offset fd d fnIdx l'} (hfile : mapAnonymous flags = false)
      (hd : anyTsInRange l a len = .ok d)
      (hadd : Added (fileSegment a len prot offset fd fnIdx) l l') :
      Change lim l (.mmap a len prot flags offset fd) ⟨true, d⟩ l'
  | shmat {a len prot d l'} (hd : anyTsInRange l a len = .ok d)
      (hadd : Added (plainSegment .shmC a len prot) l l') :
      Change lim l (.shmat a len prot) ⟨true, d⟩ l'
  | mprotectNone {start prot} : Change lim l (.mprotect start 0 prot) ⟨true, false⟩ l
  | mprotect {start len prot d l'} (hd : anyTsInRange l start len = .ok d)
      (hrep : Replaces start (start + len - 1) (List.map (setPerms prot)) l l') :
      Change lim l (.mprotect start len prot) ⟨true, d && !protExec prot⟩ l'
  | munmapNone {start} : Change lim l (.munmap start 0) ⟨true, false⟩ l
  | munmap {start len d l'} (hd : anyTsInRange l start len = .ok d)
      (hadd : Added { kind := holeKind lim start (start + len - 1), start := start
                      stop := start + len - 1 } l l') :
      Change lim l (.munmap start len) ⟨true, d⟩ l'
  | munmapClientNone {start sres} : Change lim l (.munmapClient start 0 sres) ⟨true, false⟩ l
  | munmapClient {start len sres d l'} (hd : anyTsInRange l start (pgroundup len) = .ok d)
      (hadd : Added { kind := holeKind lim start (start + pgroundup len - 1), start := start
                      stop := start + pgroundup len - 1 } l l') :
      Change lim l (.munmapClient start len sres) ⟨true, d⟩ l'
  | changeOwnershipNone {start} : Change lim l (.changeOwnership start 0) ⟨true, false⟩ l
  | changeOwnership {start len s l'} (hpos : 0 < len) (hs : s ∈ l) (hlo : s.start ≤ start)
      (hhi : start + len - 1 ≤ s.stop) (hkind : s.kind.isValgrind)
      (hrep : Replaces start (start + len - 1) (List.map toClient) l l') :
      Change lim l (.changeOwnership start len) ⟨true, false⟩ l'
  | setHasT {addr l₁ s l₂} (hl : l = l₁ ++ s :: l₂) (hlo : s.start ≤ addr) (hhi : addr ≤ s.stop)
      (hkind : s.kind.isClient) :
      Change lim l (.setHasT addr) ⟨true, false⟩ (l₁ ++ { s with hasT := true } :: l₂)
  | createReservation {zone : Zone} {smode s l'} (hs : s ∈ l) (hkind : s.kind = .free)
      (hlo : s.start ≤ zone.start) (hhi : zone.start + zone.length - 1 ≤ s.stop)
      (hadd : Added { kind := .resvn, start := zone.start, stop := zone.start + zone.length - 1
                      smode := smode } l l') :
      Change lim l (.createReservation zone smode) ⟨true, false⟩ l'
  | extendNone {addr sres} : Change lim l (.extendReservation addr 0 sres) ⟨true, false⟩ l
  | extendForwards {addr delta sres l₁ sA sR l₂} (hl : l = l₁ ++ sA :: sR :: l₂)
      (hlo : sA.start ≤ addr) (hhi : addr ≤ sA.stop) (hA : sA.kind = .anonC)
      (hR : sR.kind = .resvn) (hpos : 0 < delta) (hpage : delta.natAbs % pageSize = 0)
      (hfit : delta.natAbs + pageSize ≤ sR.stop - sR.start + 1) :
      Change lim l (.extendReservation addr delta sres) ⟨true, false⟩
        (l₁ ++ { sA with stop := sA.stop + delta.natAbs }
          :: { sR with start := sR.start + delta.natAbs } :: l₂)
  | extendBackwards {addr delta sres l₁ sA sR l₂} (hl : l = l₁ ++ sR :: sA :: l₂)
      (hlo : sA.start ≤ addr) (hhi : addr ≤ sA.stop) (hA : sA.kind = .anonC)
      (hR : sR.kind = .resvn) (hneg : delta < 0) (hpage : delta.natAbs % pageSize = 0)
      (hfit : delta.natAbs + pageSize ≤ sR.stop - sR.start + 1) :
      Change lim l (.extendReservation addr delta sres) ⟨true, false⟩
        (l₁ ++ { sR with stop := sR.stop - delta.natAbs }
          :: { sA with start := sA.start - delta.natAbs } :: l₂)
  | extendMap {addr delta sres seg segf l₁ l₂ l'} (hl : l = l₁ ++ seg :: segf :: l₂)
      (hlo : seg.start ≤ addr) (hhi : addr ≤ seg.stop) (hkind : seg.kind.isClient)
      (hfree : segf.kind = .free) (hpos : 0 < delta) (hfit : seg.stop + delta ≤ segf.stop)
      (hadd : Added { seg with stop := seg.stop + delta } l l') :
      Change lim l (.extendMap addr delta sres) ⟨true, false⟩ l'
  | relocate {oldAddr oldLen newAddr newLen sres seg d l₁ l'} (hs : seg ∈ l)
      (hlo : seg.start ≤ oldAddr) (hhi : oldAddr + oldLen - 1 ≤ seg.stop)
      (hkind : seg.kind.isClient)
      (hapart : oldAddr + oldLen - 1 < newAddr ∨ newAddr + newLen - 1 < oldAddr)
      (hd : anyTsInRanges l oldAddr oldLen newAddr newLen = .ok d)
      (hold : 0 < oldLen) (hnew : 0 < newLen)
      (hadd₁ : Added (relocated seg oldAddr newAddr newLen) l l₁)
      (hadd₂ : Added { kind := relocateHoleKind lim oldAddr, start := oldAddr
                       stop := oldAddr + oldLen - 1 } l₁ l') :
      Change lim l (.relocate oldAddr oldLen newAddr newLen sres) ⟨true, d⟩ l'

/-! ## Nothing else happens -/

section

open Aspacem

variable {st st' : Aspacem} {lim : Limits} {r : Reply} {d ok : Bool} {a addr start len prot : ℕ}
  {sres i : Option ℕ} {overflow : Bool} {delta : ℤ} {sA : NSegment}

theorem mmapSegment_ok {t t' : Segnames} {flags offset : ℕ} {fd : FdInfo} {seg : NSegment}
    (hok : mmapSegment t a len prot flags offset fd = .ok (seg, t')) :
    (mapAnonymous flags ∧ seg = plainSegment .anonC a len prot)
      ∨ mapAnonymous flags = false ∧ ∃ o, seg = fileSegment a len prot offset fd o := by
  rw [mmapSegment] at hok
  split_ifs at hok with hanon
  · exact .inl ⟨hanon, (Prod.mk.inj (ok.inj hok)).1.symm⟩
  · obtain ⟨⟨o, t₁⟩, -, hok⟩ := bind_eq_ok.mp hok
    exact .inr ⟨by simpa using hanon, o, (Prod.mk.inj (ok.inj hok)).1.symm⟩

theorem setPerms_start (prot : ℕ) (s : NSegment) : (setPerms prot s).start = s.start := by
  rw [setPerms]
  split_ifs <;> rfl

theorem setPerms_stop (prot : ℕ) (s : NSegment) : (setPerms prot s).stop = s.stop := by
  rw [setPerms]
  split_ifs <;> rfl

theorem toClient_start (s : NSegment) : s.toClient.start = s.start := by
  rw [toClient]
  split <;> rfl

theorem toClient_stop (s : NSegment) : s.toClient.stop = s.stop := by
  rw [toClient]
  split <;> rfl

/-- A range with its extra space does not wrap around. -/
theorem zone_end (zone : Zone) : (zone.start + zone.length + (2 ^ 64 - 1)) % 2 ^ 64
    = zone.start + zone.length - 1 := by
  have hpos := zone.pos
  have hupper := zone.upper
  omega

section Extend

variable {l₁ l₂ : List NSegment} (hl : st.segs = l₁ ++ sA :: l₂) (hlo : sA.start ≤ addr)
  (hhi : addr ≤ sA.stop) (hA : sA.kind = .anonC) (hpage : delta.natAbs % pageSize = 0)
  (sres : Option ℕ)
include hl hlo hhi hA hpage

theorem extendForwards_returns (hpos : 0 < delta) :
    ∃ i overflow st', st.extendForwards l₁.length sA delta.natAbs sres = .ok (i, overflow, st')
      ∧ Change lim st.segs (.extendReservation addr delta sres) ⟨i.isSome, false⟩ st'.segs
      ∧ st'.names = st.names := by
  obtain ⟨l, t⟩ := st
  obtain rfl : l = l₁ ++ sA :: l₂ := hl
  rw [extendForwards]
  cases l₂ with
  | nil =>
    refine ⟨none, false, _, ?_, .failed, rfl⟩
    simp
  | cons sR l₂ =>
    have hget : (l₁ ++ sA :: sR :: l₂)[l₁.length + 1]? = some sR := by
      simp
    rw [hget]
    dsimp only
    split_ifs with hR hfit hsres
    · exact ⟨_, _, _, rfl, .failed, rfl⟩
    · exact ⟨_, _, _, rfl, .failed, rfl⟩
    · exact ⟨_, _, _, rfl, .failed, rfl⟩
    rw [not_or, not_not] at hR
    have hfit' : sR.start + delta.natAbs ≤ sR.stop := by
      rw [pageSize] at hfit
      omega
    rw [vgAssert_bind hfit', take_left, drop_length_add_append, pure_eq_ok]
    exact ⟨_, _, _, rfl, .extendForwards rfl hlo hhi hA hR.1 hpos hpage (not_lt.mp hfit), rfl⟩

theorem extendBackwards_returns (hneg : delta < 0) :
    ∃ i overflow st', st.extendBackwards l₁.length sA delta.natAbs sres = .ok (i, overflow, st')
      ∧ Change lim st.segs (.extendReservation addr delta sres) ⟨i.isSome, false⟩ st'.segs
      ∧ st'.names = st.names := by
  obtain ⟨l, t⟩ := st
  obtain rfl : l = l₁ ++ sA :: l₂ := hl
  rcases l₁.eq_nil_or_concat with rfl | ⟨r, sR, rfl⟩
  · exact ⟨none, false, _, rfl, .failed, rfl⟩
  · have hlist : r.concat sR ++ sA :: l₂ = r ++ sR :: sA :: l₂ := by simp
    have hlen : (r.concat sR).length = r.length + 1 := by simp
    rw [hlist, hlen, extendBackwards, nsegmentAt_append, ok_bind]
    split_ifs with hR hfit hsres
    · exact ⟨_, _, _, rfl, .failed, rfl⟩
    · exact ⟨_, _, _, rfl, .failed, rfl⟩
    · exact ⟨_, _, _, rfl, .failed, rfl⟩
    rw [not_or, not_not] at hR
    have hfit' : sR.start ≤ sR.stop - delta.natAbs := by
      rw [pageSize] at hfit
      omega
    rw [vgAssert_bind hfit', take_left, drop_length_add_append, pure_eq_ok]
    exact ⟨_, _, _, rfl, .extendBackwards rfl hlo hhi hA hR.1 hneg hpage (not_lt.mp hfit), rfl⟩

/-- **Extending into a reservation** returns, and moves the boundary or changes nothing. -/
theorem extendReservation_returns (lim : Limits) (h : Tiles 0 st.segs (2 ^ 64)) :
    ∃ i overflow st',
      st.amExtendIntoAdjacentReservationClient addr delta sres = .ok (i, overflow, st')
      ∧ Change lim st.segs (.extendReservation addr delta sres) ⟨i.isSome, false⟩ st'.segs
      ∧ st'.names = st.names := by
  have hfind : findNsegmentIdx st.segs addr = .ok l₁.length := by
    rw [hl]
    exact findNsegmentIdx_eq (hl ▸ h) hlo hhi
  have hget : nsegmentAt st.segs l₁.length = .ok sA := by rw [hl, nsegmentAt_append]
  rw [amExtendIntoAdjacentReservationClient, hfind, ok_bind, hget, ok_bind, vgAssert_bind hA]
  split_ifs with hzero hpos
  · exact ⟨_, _, st, rfl, hzero ▸ .extendNone, rfl⟩
  · rw [vgAssert_bind hpage]
    exact extendForwards_returns hl hlo hhi hA hpage sres hpos
  · rw [vgAssert_bind hpage]
    exact extendBackwards_returns hl hlo hhi hA hpage sres (by omega)

end Extend

theorem anyTsInRanges_ok {l : List NSegment} (h : Tiles 0 l (2 ^ 64)) {start' len' : ℕ}
    (hok : anyTsInRanges l start len start' len' = .ok d) :
    ∀ s ∈ l, s.hasT → (s.start < start + len ∧ start ≤ s.stop)
      ∨ (s.start < start' + len' ∧ start' ≤ s.stop) → d = true := by
  rw [anyTsInRanges] at hok
  obtain ⟨d₁, hd₁, hok⟩ := bind_eq_ok.mp hok
  have h₁ := (anyTsInRange_ok h hd₁).2.2
  intro s hs hT hmeet
  split_ifs at hok with hd
  · exact (ok.inj hok).symm
  · rcases hmeet with hmeet | hmeet
    · exact absurd (h₁ s hs hT hmeet.1 hmeet.2) hd
    · exact (anyTsInRange_ok h hok).2.2 s hs hT hmeet.1 hmeet.2

section

variable (h : Tiles 0 st.segs (2 ^ 64))
include h

theorem mmap_change {flags offset : ℕ} {fd : FdInfo}
    (hok : st.amNotifyClientMmap a len prot flags offset fd = .ok (d, st')) :
    Change lim st.segs (.mmap a len prot flags offset fd) ⟨true, d⟩ st'.segs := by
  simp only [amNotifyClientMmap, vgAssert_bind_eq_ok] at hok
  obtain ⟨-, -, -, -, hok⟩ := hok
  obtain ⟨d, hd, hok⟩ := bind_eq_ok.mp hok
  obtain ⟨⟨seg, names⟩, hseg, hok⟩ := bind_eq_ok.mp hok
  obtain ⟨st₁, hadd, hok⟩ := bind_eq_ok.mp hok
  cases hok
  have htiles : Tiles 0 (Aspacem.mk st.segs names).segs (2 ^ 64) := h
  have hadded := (addSegment_segs htiles hadd).2
  rcases mmapSegment_ok hseg with ⟨hanon, rfl⟩ | ⟨hfile, o, rfl⟩
  · exact .mmapAnon hanon hd hadded
  · exact .mmapFile hfile hd hadded

theorem shmat_change (hok : st.amNotifyClientShmat a len prot = .ok (d, st')) :
    Change lim st.segs (.shmat a len prot) ⟨true, d⟩ st'.segs := by
  simp only [amNotifyClientShmat, vgAssert_bind_eq_ok] at hok
  obtain ⟨-, -, -, hok⟩ := hok
  obtain ⟨d, hd, hok⟩ := bind_eq_ok.mp hok
  obtain ⟨st₁, hadd, hok⟩ := bind_eq_ok.mp hok
  cases hok
  exact .shmat hd (addSegment_segs h hadd).2

theorem mprotect_change (hok : st.amNotifyMprotect start len prot = .ok (d, st')) :
    Change lim st.segs (.mprotect start len prot) ⟨true, d⟩ st'.segs := by
  simp only [amNotifyMprotect, vgAssert_bind_eq_ok] at hok
  obtain ⟨-, -, hok⟩ := hok
  split_ifs at hok with hlen
  · cases hok
    subst hlen
    exact .mprotectNone
  rw [mprotectRange] at hok
  obtain ⟨d, hd, hok⟩ := bind_eq_ok.mp hok
  obtain ⟨⟨st₁, iLo, iHi⟩, hsplit, hok⟩ := bind_eq_ok.mp hok
  obtain ⟨-, -, hpLo, hpHi, l₁, m, l₂, hcarve, hsegs, h₁, hm, h₂, rfl, hiHi, hfLo, hfHi⟩ :=
    splitNsegmentsLoAndHi_segs h hsplit
  dsimp only at hok
  rw [hfLo, ok_bind, hfHi, ok_bind, hsegs, slice_append _ _ _ hiHi, take_left,
    drop_append_length hiHi, vgAssert_bind_eq_ok] at hok
  obtain ⟨-, hok⟩ := hok
  obtain ⟨st₂, hpreen, hok⟩ := bind_eq_ok.mp hok
  cases hok
  have hmid := (tiles_map (setPerms_start prot) (setPerms_stop prot)).mpr hm
  have htiles :
      Tiles 0 (Aspacem.mk (l₁ ++ (m.map (setPerms prot) ++ l₂)) st₁.names).segs (2 ^ 64) :=
    h₁.append (hmid.append h₂)
  exact .mprotect hd ⟨hpLo, hpHi, l₁, m, l₂, hcarve, h₁, hm, hmid, h₂,
    (preenNsegments_segs htiles hpreen).1⟩

theorem munmapRange_added
    (hok : st.munmapRange lim start len = .ok (d, st')) : anyTsInRange st.segs start len = .ok d
      ∧ Added { kind := holeKind lim start (start + len - 1), start := start
                stop := start + len - 1 } st.segs st'.segs := by
  rw [munmapRange] at hok
  obtain ⟨d, hd, hok⟩ := bind_eq_ok.mp hok
  obtain ⟨st₁, hadd, hok⟩ := bind_eq_ok.mp hok
  cases hok
  exact ⟨hd, (addSegment_segs h hadd).2⟩

theorem munmap_change (hok : st.amNotifyMunmap lim start len = .ok (d, st')) :
    Change lim st.segs (.munmap start len) ⟨true, d⟩ st'.segs := by
  simp only [amNotifyMunmap, vgAssert_bind_eq_ok] at hok
  obtain ⟨-, -, hok⟩ := hok
  split_ifs at hok with hlen
  · cases hok
    subst hlen
    exact .munmapNone
  · obtain ⟨hd, hadd⟩ := munmapRange_added h hok
    exact .munmap hd hadd

theorem munmapClient_change {sres : Bool}
    (hok : st.amMunmapClient lim start len sres = .ok (r, st')) :
    Change lim st.segs (.munmapClient start len sres) r st'.segs := by
  rw [amMunmapClient, amMunmapBothWrk] at hok
  split_ifs at hok with halign hlen hwrap
  · cases hok
    exact .failed
  · cases hok
    subst hlen
    exact .munmapClientNone
  · cases hok
    exact .failed
  obtain ⟨valid, -, hok⟩ := bind_eq_ok.mp hok
  split_ifs at hok with hvalid
  · rw [munmapAnswered] at hok
    obtain ⟨d, hd, hok⟩ := bind_eq_ok.mp hok
    split_ifs at hok
    · obtain ⟨⟨d', st₁⟩, hmunmap, hok⟩ := bind_eq_ok.mp hok
      cases hok
      simp only [amNotifyMunmap, vgAssert_bind_eq_ok] at hmunmap
      obtain ⟨-, -, hmunmap⟩ := hmunmap
      rw [if_neg (anyTsInRange_ok h hd).1.ne'] at hmunmap
      exact .munmapClient hd (munmapRange_added h hmunmap).2
    · cases hok
      exact .failed
  · cases hok
    exact .failed

theorem changeOwnership_change (hok : st.amChangeOwnershipVToC start len = .ok (ok, st')) :
    Change lim st.segs (.changeOwnership start len) ⟨ok, false⟩ st'.segs := by
  rw [amChangeOwnershipVToC] at hok
  split_ifs at hok with hlen hwrap halign
  · cases hok
    subst hlen
    exact .changeOwnershipNone
  · cases hok
    exact .failed
  · cases hok
    exact .failed
  obtain ⟨i, hfind, hok⟩ := bind_eq_ok.mp hok
  obtain ⟨-, r₁, s, r₂, hl, rfl, hlo, -⟩ := findNsegmentIdx_ok h hfind
  rw [hl, nsegmentAt_append, ok_bind] at hok
  by_cases hkind : s.kind.isValgrind = true
  swap
  · rw [if_pos hkind] at hok
    cases hok
    exact .failed
  rw [if_neg (not_not.mpr hkind)] at hok
  split_ifs at hok with hend
  · cases hok
    exact .failed
  rw [changeOwner] at hok
  obtain ⟨⟨st₁, iLo, iHi⟩, hsplit, hok⟩ := bind_eq_ok.mp hok
  obtain ⟨-, -, hpLo, hpHi, l₁, m, l₂, hcarve, hsegs, h₁, hm, h₂, rfl, hiHi, -⟩ :=
    splitNsegmentsLoAndHi_segs h hsplit
  rw [vgAssert_bind_eq_ok] at hok
  obtain ⟨hsame, hok⟩ := hok
  obtain ⟨s', rfl⟩ : ∃ s', m = [s'] := length_eq_one_iff.mp (by omega)
  rw [hsegs, singleton_append, nsegmentAt_append, ok_bind, vgAssert_bind_eq_ok,
    take_left, drop_succ_append] at hok
  obtain ⟨-, hok⟩ := hok
  obtain ⟨st₂, hpreen, hok⟩ := bind_eq_ok.mp hok
  cases hok
  have hmid := (tiles_map toClient_start toClient_stop).mpr hm
  have htiles : Tiles 0 (Aspacem.mk (l₁ ++ s'.toClient :: l₂) st₁.names).segs (2 ^ 64) :=
    h₁.append (hmid.append h₂)
  exact .changeOwnership (pos_of_ne_zero hlen) (by rw [hl]; simp) hlo (by omega)
    hkind ⟨hpLo, hpHi, l₁, [s'], l₂, hcarve, h₁, hm, hmid, h₂,
      (preenNsegments_segs htiles hpreen).1⟩

theorem setHasT_change (hok : st.amSetSegmentHasT addr = .ok st') :
    Change lim st.segs (.setHasT addr) ⟨true, false⟩ st'.segs := by
  rw [amSetSegmentHasT] at hok
  obtain ⟨i, hfind, hok⟩ := bind_eq_ok.mp hok
  obtain ⟨-, l₁, s, l₂, hl, rfl, hlo, hhi⟩ := findNsegmentIdx_ok h hfind
  rw [hl, nsegmentAt_append, ok_bind, vgAssert_bind_eq_ok, take_left,
    drop_succ_append] at hok
  rw [← ok.inj hok.2]
  exact .setHasT hl hlo hhi hok.1

theorem createReservation_change {zone : Zone} {smode : ShrinkMode}
    (hok : st.amCreateReservation zone.start zone.length smode zone.extra = .ok (ok, st')) :
    Change lim st.segs (.createReservation zone smode) ⟨ok, false⟩ st'.segs := by
  simp only [amCreateReservation, vgAssert_bind_eq_ok, zone_end] at hok
  obtain ⟨-, -, -, -, hok⟩ := hok
  obtain ⟨i, hfind, hok⟩ := bind_eq_ok.mp hok
  obtain ⟨j, -, hok⟩ := bind_eq_ok.mp hok
  obtain ⟨-, l₁, s, l₂, hl, rfl, -, -⟩ := findNsegmentIdx_ok h hfind
  split_ifs at hok with hsame
  · cases hok
    exact .failed
  rw [hl, nsegmentAt_append, ok_bind] at hok
  split_ifs at hok with hkind
  · cases hok
    exact .failed
  rw [vgAssert_bind_eq_ok, vgAssert_bind_eq_ok] at hok
  obtain ⟨hlo, hhi, hok⟩ := hok
  obtain ⟨st₁, hadd, hok⟩ := bind_eq_ok.mp hok
  cases hok
  have hpos := zone.pos
  have hlower := zone.lower
  have hupper := zone.upper
  exact .createReservation (by rw [hl]; simp) (not_not.mp hkind) (by omega) (by omega)
    (addSegment_segs h hadd).2

theorem extendReservation_change
    (hok : st.amExtendIntoAdjacentReservationClient addr delta sres = .ok (i, overflow, st')) :
    Change lim st.segs (.extendReservation addr delta sres) ⟨i.isSome, false⟩ st'.segs := by
  have hrun := hok
  rw [amExtendIntoAdjacentReservationClient] at hrun
  obtain ⟨segA, hfind, hrun⟩ := bind_eq_ok.mp hrun
  obtain ⟨-, l₁, sA, l₂, hl, rfl, hlo, hhi⟩ := findNsegmentIdx_ok h hfind
  rw [hl, nsegmentAt_append, ok_bind, vgAssert_bind_eq_ok] at hrun
  have hpage : delta.natAbs % pageSize = 0 := by
    by_cases hzero : delta = 0
    · rw [hzero]
      rfl
    · rw [if_neg hzero] at hrun
      exact (vgAssert_bind_eq_ok.mp hrun.2).1
  obtain ⟨i', overflow', st₁, heq, hchange, -⟩ :=
    extendReservation_returns hl hlo hhi hrun.1 hpage sres lim h
  cases heq.symm.trans hok
  exact hchange

theorem extendMap_change {delta : ℕ} (hok : st.amExtendMapClient addr delta sres = .ok (i, st')) :
    Change lim st.segs (.extendMap addr delta sres) ⟨i.isSome, false⟩ st'.segs := by
  rw [amExtendMapClient] at hok
  obtain ⟨ix, hfind, hok⟩ := bind_eq_ok.mp hok
  obtain ⟨-, l₁, seg, r, hl, rfl, hlo, hhi⟩ := findNsegmentIdx_ok h hfind
  rw [hl, nsegmentAt_append, ok_bind] at hok
  simp only [vgAssert_bind_eq_ok] at hok
  obtain ⟨hkind, ⟨hpos, -⟩, -, hnext⟩ := hok
  obtain ⟨segf, hsegf, hnext⟩ := bind_eq_ok.mp hnext
  simp only [vgAssert_bind_eq_ok] at hnext
  obtain ⟨hfree, hadj, hfit, hask⟩ := hnext
  obtain ⟨l₂, rfl⟩ : ∃ l₂, r = segf :: l₂ := by
    cases r with
    | nil => simp [nsegmentAt] at hsegf
    | cons s l₂ =>
      have hs : s = segf := by simpa [nsegmentAt] using hsegf
      exact ⟨l₂, by rw [hs]⟩
  have hstop : seg.stop + 1 = segf.start := by
    rw [hl] at h
    exact (neighbours h).2.1.symm
  have hbound : segf.stop < 2 ^ 64 := (h.bounds segf (by rw [hl]; simp)).2.2
  rw [← hadj] at hfit
  cases sres with
  | none =>
    cases hask
    exact .failed
  | some r =>
    dsimp only at hask
    rw [vgAssert_bind_eq_ok] at hask
    obtain ⟨-, hask⟩ := hask
    obtain ⟨st₁, hadd, hask⟩ := bind_eq_ok.mp hask
    obtain ⟨ix, -, hask⟩ := bind_eq_ok.mp hask
    cases hask
    exact .extendMap hl hlo hhi hkind hfree hpos (by omega)
      (addSegment_segs h hadd).2

theorem relocate_change {oldAddr oldLen newAddr newLen : ℕ}
    (hok : st.amRelocateNooverlapClient lim oldAddr oldLen newAddr newLen sres = .ok (r, st')) :
    Change lim st.segs (.relocate oldAddr oldLen newAddr newLen sres) r st'.segs := by
  have hfail : ∀ {r st'}, (ok (⟨false, false⟩, st) : Except Abort (Reply × Aspacem))
      = .ok (r, st') →
      Change lim st.segs (.relocate oldAddr oldLen newAddr newLen sres) r st'.segs := by
    intro r st' hok
    cases hok
    exact .failed
  rw [amRelocateNooverlapClient] at hok
  by_cases hzero : oldLen = 0 ∨ newLen = 0
  · rw [if_pos hzero] at hok
    exact hfail hok
  rw [if_neg hzero] at hok
  split_ifs at hok with halign hwrap hover
  · exact hfail hok
  · exact hfail hok
  · obtain ⟨iLo, hLo, hok⟩ := bind_eq_ok.mp hok
    obtain ⟨iHi, hHi, hok⟩ := bind_eq_ok.mp hok
    obtain ⟨-, l₁, seg, l₂, hl, rfl, hlo, -⟩ := findNsegmentIdx_ok h hLo
    obtain ⟨hend, r₁, seg', r₂, hl', rfl, -, hhi⟩ := findNsegmentIdx_ok h hHi
    by_cases hsame : l₁.length ≠ r₁.length
    · rw [if_pos hsame] at hok
      exact hfail hok
    rw [if_neg hsame, hl, nsegmentAt_append, ok_bind] at hok
    by_cases hkind : seg.kind.isClient = true
    swap
    · rw [if_pos hkind] at hok
      exact hfail hok
    rw [if_neg (not_not.mpr hkind)] at hok
    have hseg : seg' = seg := by
      have happ := hl.symm.trans hl'
      have hcons := (append_inj happ (not_not.mp hsame)).2
      exact (cons.inj hcons).1.symm
    cases sres with
    | none => exact hfail hok
    | some a =>
      dsimp only at hok
      rw [vgAssert_bind_eq_ok, relocateSegment] at hok
      obtain ⟨-, hok⟩ := hok
      obtain ⟨d, hd, hok⟩ := bind_eq_ok.mp hok
      obtain ⟨st₁, hadd₁, hok⟩ := bind_eq_ok.mp hok
      obtain ⟨st₂, hadd₂, hok⟩ := bind_eq_ok.mp hok
      cases hok
      have hadded₁ := (addSegment_segs h hadd₁).2
      have hadded₂ := (addSegment_segs hadded₁.tiles hadd₂).2
      exact .relocate (by rw [hl]; simp) hlo (hseg ▸ hhi) hkind hover hd (by omega) (by omega)
        hadded₁ hadded₂
  · exact hfail hok

/-- **An operation that returns does what the list says.** -/
theorem step_change {op : Op} (hok : st.step lim op = .ok (r, st')) :
    Change lim st.segs op r st'.segs := by
  cases op with
  | mmap a len prot flags offset fd =>
    obtain ⟨⟨d, st₁⟩, hop, hok⟩ := bind_eq_ok.mp hok
    cases hok
    exact mmap_change h hop
  | shmat a len prot =>
    obtain ⟨⟨d, st₁⟩, hop, hok⟩ := bind_eq_ok.mp hok
    cases hok
    exact shmat_change h hop
  | mprotect start len prot =>
    obtain ⟨⟨d, st₁⟩, hop, hok⟩ := bind_eq_ok.mp hok
    cases hok
    exact mprotect_change h hop
  | munmap start len =>
    obtain ⟨⟨d, st₁⟩, hop, hok⟩ := bind_eq_ok.mp hok
    cases hok
    exact munmap_change h hop
  | munmapClient start len sres => exact munmapClient_change h hok
  | changeOwnership start len =>
    obtain ⟨⟨ok, st₁⟩, hop, hok⟩ := bind_eq_ok.mp hok
    cases hok
    exact changeOwnership_change h hop
  | setHasT addr =>
    obtain ⟨st₁, hop, hok⟩ := bind_eq_ok.mp hok
    cases hok
    exact setHasT_change h hop
  | createReservation zone smode =>
    obtain ⟨⟨ok, st₁⟩, hop, hok⟩ := bind_eq_ok.mp hok
    cases hok
    exact createReservation_change h hop
  | extendReservation addr delta sres =>
    obtain ⟨⟨i, overflow, st₁⟩, hop, hok⟩ := bind_eq_ok.mp hok
    cases hok
    exact extendReservation_change h hop
  | extendMap addr delta sres =>
    obtain ⟨⟨i, st₁⟩, hop, hok⟩ := bind_eq_ok.mp hok
    cases hok
    exact extendMap_change h hop
  | relocate oldAddr oldLen newAddr newLen sres => exact relocate_change h hok

end

/-- **Every operation keeps the array a partition of the address space.** -/
theorem Change.tiles {l l' : List NSegment} {op : Op} (hc : Change lim l op r l')
    (h : Tiles 0 l (2 ^ 64)) : Tiles 0 l' (2 ^ 64) := by
  cases hc with
  | failed | mprotectNone | munmapNone | munmapClientNone | changeOwnershipNone | extendNone =>
    exact h
  | mmapAnon _ _ hadd | mmapFile _ _ hadd | shmat _ hadd | munmap _ hadd | munmapClient _ hadd
  | createReservation _ _ _ _ hadd | extendMap _ _ _ _ _ _ _ hadd
  | relocate _ _ _ _ _ _ _ _ _ hadd => exact hadd.tiles
  | mprotect _ hrep | changeOwnership _ _ _ _ _ hrep => exact hrep.tiles
  | setHasT hl =>
    subst hl
    obtain ⟨p, h₁, h₂⟩ := tiles_append.mp h
    exact h₁.append h₂
  | extendForwards hl _ _ _ _ _ _ hfit | extendBackwards hl _ _ _ _ _ _ hfit =>
    subst hl
    obtain ⟨hle, hadj, hle'⟩ := neighbours h
    rw [pageSize] at hfit
    exact tiles_resize h (by omega) (by omega) (by omega)

end

end Valgrind.Aspacemgr
