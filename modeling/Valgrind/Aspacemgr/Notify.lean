import Valgrind.Aspacemgr.SegmentArray

/-!
# Aspacemgr/Notify — `m_aspacemgr/aspacemgr-linux.c`: the operations on the segment array

The manager is told what the client mapped, unmapped or protected, and records it; some operations
ask the kernel first, and its answer is an argument here.  Most operations replace the segments of a
range (`Replaces`); `Op` and `step` collect them. -/

namespace Valgrind.Aspacemgr

open NSegment

/-- `aspacem_minAddr` and `aspacem_maxAddr`. -/
structure Limits where
  minAddr : ℕ
  maxAddr : ℕ
deriving DecidableEq, Repr

/-- `prot & VKI_PROT_READ`, and so on. -/
def protRead (prot : ℕ) : Bool := prot.testBit 0

def protWrite (prot : ℕ) : Bool := prot.testBit 1

def protExec (prot : ℕ) : Bool := prot.testBit 2

/-- `flags & VKI_MAP_ANONYMOUS`. -/
def mapAnonymous (flags : ℕ) : Bool := flags.testBit 5

/-- What the kernel knows of a file descriptor: device, inode and mode of the file, and its name if
that can be resolved; it is read into a buffer of `VKI_PATH_MAX` bytes. -/
structure FdInfo where
  stat : Option (ℕ × ℕ × ℕ)
  filename : Option { name : List Char // name.length < 4096 }
deriving DecidableEq, Repr

/-- What an operation reports: whether it did its work, and whether the caller should discard
translations. -/
structure Reply where
  success : Bool := true
  needDiscard : Bool := false
deriving DecidableEq, Repr

/-! ## Looking at a range -/

/-- `any_Ts_in_range`. -/
def anyTsInRange (l : List NSegment) (start len : ℕ) : Except Abort Bool := do
  vgAssert (0 < len)
  vgAssert ((start + len) % 2 ^ 64 > start)
  let iLo ← findNsegmentIdx l start
  let iHi ← findNsegmentIdx l (start + len - 1)
  return (slice l iLo iHi).any (·.hasT)

/-- The last index of a range that starts in the segment `lo` at `iLo`. -/
def lastIdx (l : List NSegment) (iLo : ℕ) (lo : NSegment) (last : ℕ) : Except Abort ℕ :=
  if last ≤ lo.stop then .ok iLo else findNsegmentIdx l last

/-- `is_valid_for`: only segments of the kinds, with the permissions. -/
def isValidFor (l : List NSegment) (kinds : SegKind → Bool) (start len prot : ℕ) :
    Except Abort Bool :=
  if len = 0 then .ok true
  else if (start + len) % 2 ^ 64 < start then .ok false
  else do
    let iLo ← findNsegmentIdx l start
    let lo ← nsegmentAt l iLo
    vgAssert (lo.start ≤ start)
    let iHi ← lastIdx l iLo lo (start + len - 1)
    return (slice l iLo iHi).all fun s => kinds s.kind && (!protRead prot || s.hasR)
      && (!protWrite prot || s.hasW) && (!protExec prot || s.hasX)

/-- The kinds of `VG_(am_is_valid_for_client_or_free_or_resvn)`. -/
def SegKind.isClientOrFreeOrResvn (k : SegKind) : Bool := k.isClient || !k.isMapped

/-- The kinds of `VG_(am_is_valid_for_valgrind)`. -/
def SegKind.isValgrind : SegKind → Bool
  | .fileV | .anonV => true
  | _ => false

/-- What may be unmapped for the client, and for Valgrind. -/
def munmapKinds (forClient : Bool) : SegKind → Bool :=
  if forClient then SegKind.isClientOrFreeOrResvn else SegKind.isValgrind

namespace Aspacem

/-! ## Notifications -/

/-- The index of the name of a mapped file, if it could be resolved. -/
def allocateName (t : Segnames) (fd : FdInfo) : Except Abort (Option ℕ × Segnames) :=
  match fd.filename with
  | none => .ok (none, t)
  | some name => t.amAllocateSegname name.1

/-- The segment that `VG_(am_notify_client_mmap)` records for a file. -/
def fileSegment (a len prot offset : ℕ) (fd : FdInfo) (fnIdx : Option ℕ) : NSegment where
  kind := .fileC
  start := a
  stop := a + len - 1
  hasR := protRead prot
  hasW := protWrite prot
  hasX := protExec prot
  offset := offset
  dev := fd.stat.elim 0 (·.1)
  ino := fd.stat.elim 0 (·.2.1)
  mode := fd.stat.elim 0 (·.2.2)
  fnIdx := fnIdx

/-- The segment that it records for an anonymous mapping, and `VG_(am_notify_client_shmat)` for
shared memory. -/
def plainSegment (kind : SegKind) (a len prot : ℕ) : NSegment where
  kind := kind
  start := a
  stop := a + len - 1
  hasR := protRead prot
  hasW := protWrite prot
  hasX := protExec prot

/-- The segment of an mmap, and the names after it. -/
def mmapSegment (t : Segnames) (a len prot flags offset : ℕ) (fd : FdInfo) :
    Except Abort (NSegment × Segnames) :=
  if mapAnonymous flags then .ok (plainSegment .anonC a len prot, t)
  else do
    let (fnIdx, t) ← allocateName t fd
    return (fileSegment a len prot offset fd fnIdx, t)

/-- `VG_(am_notify_client_mmap)`. -/
def amNotifyClientMmap (st : Aspacem) (a len prot flags offset : ℕ) (fd : FdInfo) :
    Except Abort (Bool × Aspacem) := do
  vgAssert (0 < len)
  vgAssert (a % pageSize = 0)
  vgAssert (len % pageSize = 0)
  vgAssert (offset % pageSize = 0)
  let needDiscard ← anyTsInRange st.segs a len
  let (seg, names) ← mmapSegment st.names a len prot flags offset fd
  let st ← addSegment ⟨st.segs, names⟩ seg
  return (needDiscard, st)

/-- `VG_(am_notify_client_shmat)`. -/
def amNotifyClientShmat (st : Aspacem) (a len prot : ℕ) : Except Abort (Bool × Aspacem) := do
  vgAssert (0 < len)
  vgAssert (a % pageSize = 0)
  vgAssert (len % pageSize = 0)
  let needDiscard ← anyTsInRange st.segs a len
  let st ← st.addSegment (plainSegment .shmC a len prot)
  return (needDiscard, st)

end Aspacem

/-- Permissions are recorded for what is mapped. -/
def NSegment.setPerms (prot : ℕ) (s : NSegment) : NSegment :=
  if s.kind.isMapped then
    { s with hasR := protRead prot, hasW := protWrite prot, hasX := protExec prot }
  else s

/-- A segment of Valgrind becomes one of the client. -/
def NSegment.toClient (s : NSegment) : NSegment :=
  match s.kind with
  | .fileV => { s with kind := .fileC }
  | .anonV => { s with kind := .anonC }
  | _ => s

namespace Aspacem

/-- `VG_(am_notify_mprotect)` of a range that is not empty. -/
def mprotectRange (st : Aspacem) (start len prot : ℕ) : Except Abort (Bool × Aspacem) := do
  let ts ← anyTsInRange st.segs start len
  let (st, _, _) ← st.splitNsegmentsLoAndHi start (start + len - 1)
  let iLo ← findNsegmentIdx st.segs start
  let iHi ← findNsegmentIdx st.segs (start + len - 1)
  let mid := (slice st.segs iLo iHi).map (setPerms prot)
  vgAssert (mid.all fun s => !s.kind.isMapped || saneNSegment st.names s)
  let st ← preenNsegments ⟨st.segs.take iLo ++ (mid ++ st.segs.drop (iHi + 1)), st.names⟩
  return (ts && !protExec prot, st)

/-- `VG_(am_notify_mprotect)`. -/
def amNotifyMprotect (st : Aspacem) (start len prot : ℕ) : Except Abort (Bool × Aspacem) := do
  vgAssert (start % pageSize = 0)
  vgAssert (len % pageSize = 0)
  if len = 0 then return (false, st) else st.mprotectRange start len prot

/-- What becomes of an unmapped range: above and below the limits it is reserved again. -/
def holeKind (lim : Limits) (start stop : ℕ) : SegKind :=
  if start > lim.maxAddr ∧ lim.maxAddr < 2 ^ 64 - 1 then .resvn
  else if stop < lim.minAddr ∧ lim.minAddr > 0 then .resvn
  else .free

/-- `VG_(am_notify_munmap)` of a range that is not empty. -/
def munmapRange (st : Aspacem) (lim : Limits) (start len : ℕ) : Except Abort (Bool × Aspacem) := do
  let needDiscard ← anyTsInRange st.segs start len
  let stop := start + len - 1
  let st ← st.addSegment { kind := holeKind lim start stop, start := start, stop := stop }
  return (needDiscard, st)

/-- `VG_(am_notify_munmap)`. -/
def amNotifyMunmap (st : Aspacem) (lim : Limits) (start len : ℕ) :
    Except Abort (Bool × Aspacem) := do
  vgAssert (start % pageSize = 0)
  vgAssert (len % pageSize = 0)
  if len = 0 then return (false, st) else st.munmapRange lim start len

/-! ## Operations that ask the kernel -/

/-- `VG_PGROUNDUP`. -/
def pgroundup (len : ℕ) : ℕ := (len + pageSize - 1) / pageSize * pageSize % 2 ^ 64

/-- `am_munmap_both_wrk`, once the kernel has been asked. -/
def munmapAnswered (st : Aspacem) (lim : Limits) (start len : ℕ) (sres : Bool) :
    Except Abort (Reply × Aspacem) := do
  let d ← anyTsInRange st.segs start len
  if sres then do
    let (_, st) ← st.amNotifyMunmap lim start len
    return (⟨true, d⟩, st)
  else return (⟨false, false⟩, st)

/-- `am_munmap_both_wrk`; `sres` says whether the kernel unmaps the range. -/
def amMunmapBothWrk (st : Aspacem) (lim : Limits) (start len : ℕ) (forClient sres : Bool) :
    Except Abort (Reply × Aspacem) :=
  if start % pageSize ≠ 0 then .ok (⟨false, false⟩, st)
  else if len = 0 then .ok (⟨true, false⟩, st)
  else if (start + len) % 2 ^ 64 < len then .ok (⟨false, false⟩, st)
  else do
    if ← isValidFor st.segs (munmapKinds forClient) start (pgroundup len) 0 then
      st.munmapAnswered lim start (pgroundup len) sres
    else return (⟨false, false⟩, st)

/-- `VG_(am_munmap_client)`. -/
def amMunmapClient (st : Aspacem) (lim : Limits) (start len : ℕ) (sres : Bool) :
    Except Abort (Reply × Aspacem) := st.amMunmapBothWrk lim start len true sres

/-- Change the owner of a range inside the segment at `i`. -/
def changeOwner (st : Aspacem) (start stop : ℕ) : Except Abort (Bool × Aspacem) := do
  let (st, iLo, iHi) ← st.splitNsegmentsLoAndHi start stop
  vgAssert (iLo = iHi)
  let s ← nsegmentAt st.segs iLo
  vgAssert s.kind.isValgrind
  let st ← preenNsegments
    ⟨st.segs.take iLo ++ s.toClient :: st.segs.drop (iLo + 1), st.names⟩
  return (true, st)

/-- `VG_(am_change_ownership_v_to_c)`. -/
def amChangeOwnershipVToC (st : Aspacem) (start len : ℕ) : Except Abort (Bool × Aspacem) :=
  if len = 0 then .ok (true, st)
  else if (start + len) % 2 ^ 64 < start then .ok (false, st)
  else if start % pageSize ≠ 0 ∨ len % pageSize ≠ 0 then .ok (false, st)
  else do
    let i ← findNsegmentIdx st.segs start
    let s ← nsegmentAt st.segs i
    if ¬ s.kind.isValgrind then return (false, st)
    else if start + len - 1 > s.stop then return (false, st)
    else st.changeOwner start (start + len - 1)

/-- `VG_(am_set_segment_hasT)`. -/
def amSetSegmentHasT (st : Aspacem) (addr : ℕ) : Except Abort Aspacem := do
  let i ← findNsegmentIdx st.segs addr
  let s ← nsegmentAt st.segs i
  vgAssert s.kind.isClient
  return ⟨st.segs.take i ++ { s with hasT := true } :: st.segs.drop (i + 1), st.names⟩

/-- `VG_(am_create_reservation)`: `extra` bytes above or below must be free as well. -/
def amCreateReservation (st : Aspacem) (start length : ℕ) (smode : ShrinkMode) (extra : ℤ) :
    Except Abort (Bool × Aspacem) := do
  let end1 := (start + length + (2 ^ 64 - 1)) % 2 ^ 64
  let start2 := ((start + min extra 0) % 2 ^ 64).toNat
  let end2 := ((end1 + max extra 0) % 2 ^ 64).toNat
  vgAssert (start % pageSize = 0)
  vgAssert ((start + length) % pageSize = 0)
  vgAssert (start2 % pageSize = 0)
  vgAssert ((end2 + 1) % pageSize = 0)
  let startI ← findNsegmentIdx st.segs start2
  let endI ← findNsegmentIdx st.segs end2
  if startI ≠ endI then return (false, st)
  else do
    let s ← nsegmentAt st.segs startI
    if s.kind ≠ .free then return (false, st)
    else do
      vgAssert (s.start ≤ start2)
      vgAssert (end2 ≤ s.stop)
      let st ← st.addSegment { kind := .resvn, start := start, stop := end1, smode := smode }
      return (true, st)

/-- The forward half of `VG_(am_extend_into_adjacent_reservation_client)`: the index of the segment
or NULL, and `*overflow`. -/
def extendForwards (st : Aspacem) (segA : ℕ) (sA : NSegment) (delta : ℕ) (sres : Option ℕ) :
    Except Abort (Option ℕ × Bool × Aspacem) :=
  match st.segs[segA + 1]? with
  | none => .ok (none, false, st)
  | some sR =>
    if sR.kind ≠ .resvn ∨ sR.smode ≠ .lower then .ok (none, false, st)
    else if delta + pageSize > sR.stop - sR.start + 1 then .ok (none, true, st)
    else if sres ≠ some sR.start then .ok (none, false, st)
    else do
      vgAssert (sR.start + delta ≤ sR.stop)
      return (some segA, false, ⟨st.segs.take segA ++ { sA with stop := sA.stop + delta }
        :: { sR with start := sR.start + delta } :: st.segs.drop (segA + 2), st.names⟩)

/-- …and the backward half. -/
def extendBackwards (st : Aspacem) (segA : ℕ) (sA : NSegment) (delta : ℕ) (sres : Option ℕ) :
    Except Abort (Option ℕ × Bool × Aspacem) :=
  match segA with
  | 0 => .ok (none, false, st)
  | segR + 1 => do
    let sR ← nsegmentAt st.segs segR
    if sR.kind ≠ .resvn ∨ sR.smode ≠ .upper then return (none, false, st)
    else if delta + pageSize > sR.stop - sR.start + 1 then return (none, true, st)
    else if sres ≠ some (sA.start - delta) then return (none, false, st)
    else do
      vgAssert (sR.start ≤ sR.stop - delta)
      return (some (segR + 1), false, ⟨st.segs.take segR ++ { sR with stop := sR.stop - delta }
        :: { sA with start := sA.start - delta } :: st.segs.drop (segR + 2), st.names⟩)

/-- `VG_(am_extend_into_adjacent_reservation_client)`; `sres` is the address at which the kernel
maps the extension. -/
def amExtendIntoAdjacentReservationClient (st : Aspacem) (addr : ℕ) (delta : ℤ) (sres : Option ℕ) :
    Except Abort (Option ℕ × Bool × Aspacem) := do
  let segA ← findNsegmentIdx st.segs addr
  let sA ← nsegmentAt st.segs segA
  vgAssert (sA.kind = .anonC)
  if delta = 0 then return (some segA, false, st)
  else do
    vgAssert (delta.natAbs % pageSize = 0)
    if 0 < delta then st.extendForwards segA sA delta.natAbs sres
    else st.extendBackwards segA sA delta.natAbs sres

/-- `VG_(am_extend_map_client)`: the index of the segment, or NULL; `sres` is where the kernel
leaves the mapping. -/
def amExtendMapClient (st : Aspacem) (addr delta : ℕ) (sres : Option ℕ) :
    Except Abort (Option ℕ × Aspacem) := do
  let ix ← findNsegmentIdx st.segs addr
  let seg ← nsegmentAt st.segs ix
  vgAssert seg.kind.isClient
  vgAssert (0 < delta ∧ delta % pageSize = 0)
  let xStart := (seg.stop + 1) % 2 ^ 64
  vgAssert ((xStart + delta) % 2 ^ 64 ≥ delta)
  let segf ← nsegmentAt st.segs (ix + 1)
  vgAssert (segf.kind = .free)
  vgAssert (segf.start = xStart)
  vgAssert (xStart + delta - 1 ≤ segf.stop)
  match sres with
  | none => return (none, st)
  | some r => do
    vgAssert (r = seg.start)
    let st ← st.addSegment { seg with stop := seg.stop + delta }
    let ix ← findNsegmentIdx st.segs addr
    return (some ix, st)

/-- The segment that `VG_(am_relocate_nooverlap_client)` makes of `seg`. -/
def relocated (seg : NSegment) (oldAddr newAddr newLen : ℕ) : NSegment :=
  { seg with
    offset := if seg.kind = .fileC then (seg.offset + (oldAddr - seg.start)) % 2 ^ 64
      else seg.offset
    start := newAddr
    stop := newAddr + newLen - 1 }

/-- What it leaves behind. -/
def relocateHoleKind (lim : Limits) (oldAddr : ℕ) : SegKind :=
  if oldAddr > lim.maxAddr ∧ lim.maxAddr < 2 ^ 64 - 1 then .resvn else .free

/-- Whether there are translations in one of two ranges. -/
def anyTsInRanges (l : List NSegment) (start len start' len' : ℕ) : Except Abort Bool := do
  if ← anyTsInRange l start len then return true else anyTsInRange l start' len'

/-- Record the relocation of a part of the segment `seg`. -/
def relocateSegment (st : Aspacem) (lim : Limits) (seg : NSegment)
    (oldAddr oldLen newAddr newLen : ℕ) : Except Abort (Reply × Aspacem) := do
  let needDiscard ← anyTsInRanges st.segs oldAddr oldLen newAddr newLen
  let st ← st.addSegment (relocated seg oldAddr newAddr newLen)
  let st ← st.addSegment { kind := relocateHoleKind lim oldAddr, start := oldAddr
                           stop := oldAddr + oldLen - 1 }
  return (⟨true, needDiscard⟩, st)

/-- `VG_(am_relocate_nooverlap_client)`; `sres` is where the kernel puts the mapping. -/
def amRelocateNooverlapClient (st : Aspacem) (lim : Limits) (oldAddr oldLen newAddr newLen : ℕ)
    (sres : Option ℕ) : Except Abort (Reply × Aspacem) :=
  if oldLen = 0 ∨ newLen = 0 then .ok (⟨false, false⟩, st)
  else if oldAddr % pageSize ≠ 0 ∨ oldLen % pageSize ≠ 0 ∨ newAddr % pageSize ≠ 0
      ∨ newLen % pageSize ≠ 0 then .ok (⟨false, false⟩, st)
  else if (oldAddr + oldLen) % 2 ^ 64 < oldAddr ∨ (newAddr + newLen) % 2 ^ 64 < newAddr then
    .ok (⟨false, false⟩, st)
  else if ¬ (oldAddr + oldLen - 1 < newAddr ∨ newAddr + newLen - 1 < oldAddr) then
    .ok (⟨false, false⟩, st)
  else do
    let iLo ← findNsegmentIdx st.segs oldAddr
    let iHi ← findNsegmentIdx st.segs (oldAddr + oldLen - 1)
    if iLo ≠ iHi then return (⟨false, false⟩, st)
    else do
      let seg ← nsegmentAt st.segs iLo
      if ¬ seg.kind.isClient then return (⟨false, false⟩, st)
      else match sres with
        | none => return (⟨false, false⟩, st)
        | some r => do
          vgAssert (r = newAddr)
          st.relocateSegment lim seg oldAddr oldLen newAddr newLen

end Aspacem

/-! ## Runs -/

/-- A range of addresses with `extra` more above (or, if that is negative, below) it. -/
structure Zone where
  start : ℕ
  length : ℕ
  extra : ℤ
  pos : 0 < length
  lower : 0 ≤ start + min extra 0
  upper : start + length + max extra 0 ≤ 2 ^ 64
deriving DecidableEq, Repr

/-- An operation, with the kernel's answer where it asks. -/
inductive Op where
  | mmap (a len prot flags offset : ℕ) (fd : FdInfo)
  | shmat (a len prot : ℕ)
  | mprotect (start len prot : ℕ)
  | munmap (start len : ℕ)
  | munmapClient (start len : ℕ) (sres : Bool)
  | changeOwnership (start len : ℕ)
  | setHasT (addr : ℕ)
  | createReservation (zone : Zone) (smode : ShrinkMode)
  | extendReservation (addr : ℕ) (delta : ℤ) (sres : Option ℕ)
  | extendMap (addr delta : ℕ) (sres : Option ℕ)
  | relocate (oldAddr oldLen newAddr newLen : ℕ) (sres : Option ℕ)
deriving DecidableEq, Repr

/-- Carry out an operation; a NULL result is a failure. -/
def Aspacem.step (lim : Limits) (st : Aspacem) : Op → Except Abort (Reply × Aspacem)
  | .mmap a len prot flags offset fd => do
    let (d, st) ← st.amNotifyClientMmap a len prot flags offset fd
    return (⟨true, d⟩, st)
  | .shmat a len prot => do
    let (d, st) ← st.amNotifyClientShmat a len prot
    return (⟨true, d⟩, st)
  | .mprotect start len prot => do
    let (d, st) ← st.amNotifyMprotect start len prot
    return (⟨true, d⟩, st)
  | .munmap start len => do
    let (d, st) ← st.amNotifyMunmap lim start len
    return (⟨true, d⟩, st)
  | .munmapClient start len sres => st.amMunmapClient lim start len sres
  | .changeOwnership start len => do
    let (ok, st) ← st.amChangeOwnershipVToC start len
    return (⟨ok, false⟩, st)
  | .setHasT addr => do
    let st ← st.amSetSegmentHasT addr
    return (⟨true, false⟩, st)
  | .createReservation zone smode => do
    let (ok, st) ← st.amCreateReservation zone.start zone.length smode zone.extra
    return (⟨ok, false⟩, st)
  | .extendReservation addr delta sres => do
    let (i, _, st) ← st.amExtendIntoAdjacentReservationClient addr delta sres
    return (⟨i.isSome, false⟩, st)
  | .extendMap addr delta sres => do
    let (i, st) ← st.amExtendMapClient addr delta sres
    return (⟨i.isSome, false⟩, st)
  | .relocate oldAddr oldLen newAddr newLen sres =>
    st.amRelocateNooverlapClient lim oldAddr oldLen newAddr newLen sres

end Valgrind.Aspacemgr
