import Valgrind.Aspacemgr.Segnames
import Valgrind.Foundations.Tiling

/-!
# Aspacemgr/NSegment — segments of the address space, and what they say of its pages

A segment (`NSegment` of `pub_tool_aspacemgr.h`) covers the addresses from `start` to `stop`.
Segments are pieces in the sense of `Foundations/Tiling`: splitting one, and merging two neighbours,
keeps what they say of every page (`isSplit`, `isMerge`). -/

namespace Valgrind.Aspacemgr

open Nat
open Tiling (Piece IsSplit IsMerge)

/-- `VKI_PAGE_SIZE`. -/
def pageSize : ℕ := 4096

/-- `SegKind`. -/
inductive SegKind where
  /-- Unmapped space. -/
  | free
  /-- Anonymous and file mappings, of the client and of Valgrind. -/
  | anonC | anonV | fileC | fileV
  /-- Shared memory of the client. -/
  | shmC
  /-- Reserved space. -/
  | resvn
deriving DecidableEq, Repr

/-- `ShrinkMode`: from which end a reservation may shrink. -/
inductive ShrinkMode where
  | lower | fixed | upper
deriving DecidableEq, Repr

namespace SegKind

/-- The mappings of files. -/
def isFile : SegKind → Bool
  | .fileC | .fileV => true
  | _ => false

/-- What is mapped: everything but free space and reservations. -/
def isMapped : SegKind → Bool
  | .free | .resvn => false
  | _ => true

/-- The mappings of the client. -/
def isClient : SegKind → Bool
  | .anonC | .fileC | .shmC => true
  | _ => false

end SegKind

/-- `NSegment`; `stop` is its field `end`, and no index is the index -1.  A new one is as
`init_nsegment` makes it. -/
structure NSegment where
  kind : SegKind := .free
  start : ℕ := 0
  stop : ℕ := 0
  smode : ShrinkMode := .fixed
  dev : ℕ := 0
  ino : ℕ := 0
  mode : ℕ := 0
  offset : ℕ := 0
  fnIdx : Option ℕ := none
  hasR : Bool := false
  hasW : Bool := false
  hasX : Bool := false
  hasT : Bool := false
  isCH : Bool := false
deriving DecidableEq, Repr

/-- What the segment array says of a page: the kind, the permissions, the file and the offset in it,
and whether it is client heap. -/
@[ext] structure PageFacts where
  kind : SegKind := .free
  hasR : Bool := false
  hasW : Bool := false
  hasX : Bool := false
  dev : ℕ := 0
  ino : ℕ := 0
  offset : ℕ := 0
  isCH : Bool := false
deriving DecidableEq, Repr

namespace NSegment

/-! ## The code -/

/-- Not backed by a file. -/
def plain (s : NSegment) : Bool := s.dev = 0 ∧ s.ino = 0 ∧ s.offset = 0 ∧ s.fnIdx = none

/-- Without permissions or marks. -/
def bare (s : NSegment) : Bool := ¬ s.hasR ∧ ¬ s.hasW ∧ ¬ s.hasX ∧ ¬ s.hasT ∧ ¬ s.isCH

/-- The part of `sane_NSegment` that depends on the kind. -/
def saneKind (t : Segnames) (s : NSegment) : Bool :=
  match s.kind with
  | .free => s.smode = .fixed && s.plain && s.bare
  | .anonC => s.smode = .fixed && s.plain
  | .anonV | .shmC => s.smode = .fixed && s.plain && !s.isCH
  | .fileC | .fileV => s.smode = .fixed && t.amSaneSegname s.fnIdx && !s.isCH
  | .resvn => s.plain && s.bare

/-- `sane_NSegment`. -/
def saneNSegment (t : Segnames) (s : NSegment) : Bool :=
  s.start ≤ s.stop && s.start % pageSize = 0 && (s.stop + 1) % pageSize = 0 && s.saneKind t

/-- The permissions of two segments are the same. -/
def samePerms (s1 s2 : NSegment) : Bool :=
  s1.hasR = s2.hasR ∧ s1.hasW = s2.hasW ∧ s1.hasX = s2.hasX

/-- `maybe_merge_nsegments`: the merged segment, or none.  A file merge gives up the reference of
`s1` to its name. -/
def maybeMergeNsegments (t : Segnames) (s1 s2 : NSegment) :
    Except Abort (Option NSegment × Segnames) :=
  if s1.kind ≠ s2.kind then .ok (none, t)
  else if (s1.stop + 1) % 2 ^ 64 ≠ s2.start then .ok (none, t)
  else if s1.start > s2.stop then .ok (none, t)
  else match s1.kind with
    | .free => .ok (some { s1 with stop := s2.stop }, t)
    | .anonC | .anonV =>
      if s1.samePerms s2 ∧ s1.isCH = s2.isCH then
        .ok (some { s1 with stop := s2.stop, hasT := s1.hasT || s2.hasT }, t)
      else .ok (none, t)
    | .fileC | .fileV =>
      if s1.samePerms s2 ∧ s1.dev = s2.dev ∧ s1.ino = s2.ino
          ∧ s2.offset = (s1.offset + s2.start + (2 ^ 64 - s1.start)) % 2 ^ 64 then do
        let t ← t.amDecRefcount s1.fnIdx
        return (some { s1 with stop := s2.stop, hasT := s1.hasT || s2.hasT }, t)
      else .ok (none, t)
    | .shmC => .ok (none, t)
    | .resvn =>
      if s1.smode = .fixed ∧ s2.smode = .fixed then .ok (some { s1 with stop := s2.stop }, t)
      else .ok (none, t)

/-- Split a segment at an address inside it, as `split_nsegment_at` does. -/
def split (s : NSegment) (a : ℕ) : NSegment × NSegment :=
  ({ s with stop := a - 1 },
   { s with start := a
            offset := if s.kind.isFile then (s.offset + (a - s.start)) % 2 ^ 64 else s.offset })

/-- What a segment says of an address in it; the offset in a file is that of the segment plus the
distance. -/
def facts (s : NSegment) (x : ℕ) : PageFacts where
  kind := s.kind
  hasR := s.hasR
  hasW := s.hasW
  hasX := s.hasX
  dev := s.dev
  ino := s.ino
  offset := if s.kind.isFile then (s.offset + (x - s.start)) % 2 ^ 64 else s.offset
  isCH := s.isCH

/-! ## Merging, without looking at positions -/

/-- Whether two neighbours can be merged. -/
def joins (s1 s2 : NSegment) : Bool :=
  s1.kind = s2.kind && match s1.kind with
    | .free => true
    | .anonC | .anonV => s1.samePerms s2 && s1.isCH = s2.isCH
    | .fileC | .fileV => s1.samePerms s2 && s1.dev = s2.dev && s1.ino = s2.ino
      && s1.start ≤ s2.start && s2.offset = (s1.offset + (s2.start - s1.start)) % 2 ^ 64
    | .shmC => false
    | .resvn => s1.smode = .fixed && s2.smode = .fixed

/-- Two neighbours in one; the marks of mapped segments are or-ed. -/
def joined (s1 s2 : NSegment) : NSegment :=
  { s1 with stop := s2.stop, hasT := s1.hasT || s1.kind.isMapped && s2.hasT }

/-- Two neighbours, merged if that can be done. -/
def merge (s1 s2 : NSegment) : Option NSegment := if joins s1 s2 then some (joined s1 s2) else none

/-- What merging does to the names. -/
def mergeNames (t : Segnames) (s1 : NSegment) : Except Abort Segnames :=
  if s1.kind.isFile then t.amDecRefcount s1.fnIdx else .ok t

variable {s s1 s2 u r : NSegment} {t t' : Segnames} {x a : ℕ}

/-- **On neighbours the code merges as `merge` does.** -/
theorem maybeMergeNsegments_eq (t : Segnames) (h1 : s1.start ≤ s1.stop) (h2 : s2.start ≤ s2.stop)
    (hadj : s1.stop + 1 = s2.start) (hfit : s2.stop < 2 ^ 64) :
    maybeMergeNsegments t s1 s2 = match merge s1 s2 with
      | none => .ok (none, t)
      | some u => (mergeNames t s1).map fun t => (some u, t) := by
  have hmod : (s1.stop + 1) % 2 ^ 64 = s2.start := by
    rw [hadj]
    exact mod_eq_of_lt (by omega)
  have hoff : (s1.offset + s2.start + (2 ^ 64 - s1.start)) % 2 ^ 64
      = (s1.offset + (s2.start - s1.start)) % 2 ^ 64 := by
    have hsum : s1.offset + s2.start + (2 ^ 64 - s1.start)
        = s1.offset + (s2.start - s1.start) + 2 ^ 64 := by omega
    rw [hsum, add_mod_right]
  have hle : s1.start ≤ s2.start := by omega
  rw [maybeMergeNsegments, merge, joins]
  by_cases hkind : s1.kind = s2.kind
  · rw [if_neg (not_not.mpr hkind), if_neg (not_not.mpr hmod), if_neg (by omega)]
    simp only [hoff, hle, hkind, decide_true, Bool.true_and, Bool.and_true]
    cases hk : s2.kind with
    | free => simp [joined, mergeNames, hkind, hk, SegKind.isFile, SegKind.isMapped, Except.map]
    | shmC => rfl
    | anonC | anonV | resvn =>
      dsimp only
      split_ifs with h h' h'
      · simp [joined, mergeNames, hkind, hk, SegKind.isFile, SegKind.isMapped, Except.map]
      · simp_all
      · simp_all
      · rfl
    | fileC | fileV =>
      dsimp only
      split_ifs with h h' h'
      · simp only [joined, mergeNames, hkind, hk, SegKind.isFile, SegKind.isMapped, if_true,
          Bool.true_and]
        rfl
      · simp_all
      · simp_all
      · rfl
  · simp [hkind]

/-! ## Segments as pieces -/

instance : Piece NSegment := ⟨NSegment.start, NSegment.stop⟩

/-- What a segment says of an address, as far as it matters for its kind. -/
def view (s : NSegment) (x : ℕ) : PageFacts :=
  match s.kind with
  | .free => { kind := .free }
  | .resvn => { kind := .resvn }
  | .anonC | .anonV =>
    { kind := s.kind, hasR := s.hasR, hasW := s.hasW, hasX := s.hasX, isCH := s.isCH }
  | .shmC => { kind := s.kind, hasR := s.hasR, hasW := s.hasW, hasX := s.hasX }
  | .fileC | .fileV =>
    { kind := s.kind, hasR := s.hasR, hasW := s.hasW, hasX := s.hasX, dev := s.dev, ino := s.ino
      offset := (s.offset + (x - s.start)) % 2 ^ 64 }

/-- A sane segment says nothing else. -/
theorem view_eq_facts (h : saneNSegment t s) (x : ℕ) : s.view x = s.facts x := by
  have hkind : s.saneKind t := by
    simp only [saneNSegment, Bool.and_eq_true] at h
    exact h.2
  rw [saneKind] at hkind
  rw [view, facts]
  cases hk : s.kind <;> simp_all [SegKind.isFile, plain, bare]

/-- The distance to an address, measured in two parts. -/
theorem offset_add (o : ℕ) {p : ℕ} (hp : a ≤ p) (hx : p ≤ x) :
    ((o + (p - a)) % 2 ^ 64 + (x - p)) % 2 ^ 64 = (o + (x - a)) % 2 ^ 64 := by
  rw [mod_add_mod]
  congr 1
  omega

theorem isSplit : IsSplit view split where
  first_fst _ _ _ _ := rfl
  last_fst _ _ h _ := Nat.sub_add_cancel (Nat.one_le_of_lt h)
  first_snd _ _ _ _ := rfl
  last_snd _ _ _ _ := rfl
  view_fst _ _ _ _ _ _ _ := rfl
  view_snd s p x hlt _ hpx _ := by
    have hoff := offset_add s.offset (le_of_lt (show s.start < p from hlt)) hpx
    cases hk : s.kind with
    | fileC | fileV => simp only [view, split, hk, SegKind.isFile, if_true, hoff]
    | free | anonC | anonV | shmC | resvn => simp only [view, split, hk]

/-- Whether a segment can be merged with what follows it depends on the first part of that. -/
theorem joins_joined (r s1 s2 : NSegment) : joins r (joined s1 s2) = joins r s1 := rfl

theorem merge_eq_some : merge s1 s2 = some u ↔ joins s1 s2 ∧ joined s1 s2 = u := by
  rw [merge]
  split_ifs with h
  · exact ⟨fun hu => ⟨h, Option.some.inj hu⟩, fun hu => congrArg some hu.2⟩
  · exact ⟨nofun, fun hu => absurd hu.1 h⟩

theorem merge_eq_none : merge s1 s2 = none ↔ joins s1 s2 = false := by
  rw [merge]
  split_ifs with h
  · exact iff_of_false nofun (by simp [h])
  · exact iff_of_true rfl (by simpa using h)

theorem isMerge : IsMerge view merge where
  first_eq h := by
    obtain ⟨-, rfl⟩ := merge_eq_some.mp h
    rfl
  last_eq h := by
    obtain ⟨-, rfl⟩ := merge_eq_some.mp h
    rfl
  view_left h _ _ _ := by
    obtain ⟨-, rfl⟩ := merge_eq_some.mp h
    rfl
  view_right {s1 s2 u x} h _ hx _ := by
    have hx : s2.start ≤ x := hx
    obtain ⟨hjoin, rfl⟩ := merge_eq_some.mp h
    simp only [joins, Bool.and_eq_true, decide_eq_true_eq] at hjoin
    obtain ⟨hkind, hjoin⟩ := hjoin
    cases hk : s1.kind with
    | free | resvn => simp only [view, joined, hk, ← hkind]
    | shmC => simp [hk] at hjoin
    | anonC | anonV =>
      simp only [hk, samePerms, Bool.and_eq_true, decide_eq_true_eq] at hjoin
      simp only [view, joined, hk, ← hkind, hjoin]
    | fileC | fileV =>
      simp only [hk, samePerms, Bool.and_eq_true, decide_eq_true_eq] at hjoin
      obtain ⟨⟨⟨⟨⟨hR, hW, hX⟩, hdev⟩, hino⟩, hle⟩, hoff⟩ := hjoin
      simp only [view, joined, hk, ← hkind, hR, hW, hX, hdev, hino, hoff,
        offset_add s1.offset hle hx]
  stable {r s1 s2 u} h hnone := by
    obtain ⟨-, rfl⟩ := merge_eq_some.mp h
    rw [merge_eq_none, joins_joined]
    exact merge_eq_none.mp hnone

/-! ## Sane segments -/

theorem saneNSegment_iff : saneNSegment t s ↔ s.start ≤ s.stop ∧ s.start % pageSize = 0
    ∧ (s.stop + 1) % pageSize = 0 ∧ s.saneKind t := by
  simp [saneNSegment, and_assoc]

theorem saneKind_mono (h : s.saneKind t) (hused : t.used ≤ t'.used) : s.saneKind t' := by
  have hname : ∀ o, t.amSaneSegname o → t'.amSaneSegname o := by
    intro o ho
    cases o with
    | none => rfl
    | some ix =>
      simp only [Segnames.amSaneSegname, Bool.and_eq_true, decide_eq_true_eq] at ho ⊢
      exact ⟨ho.1, ho.2.trans_le hused⟩
  rw [saneKind] at h ⊢
  cases hk : s.kind with
  | fileC | fileV =>
    simp only [hk, Bool.and_eq_true] at h ⊢
    exact ⟨⟨h.1.1, hname _ h.1.2⟩, h.2⟩
  | free | anonC | anonV | shmC | resvn => simpa only [hk] using h

theorem saneNSegment_mono (h : saneNSegment t s) (hused : t.used ≤ t'.used) :
    saneNSegment t' s := by
  rw [saneNSegment_iff] at h ⊢
  exact ⟨h.1, h.2.1, h.2.2.1, saneKind_mono h.2.2.2 hused⟩

/-- The halves of a sane segment are sane. -/
theorem saneNSegment_split (h : saneNSegment t s) (hlo : s.start < a) (hhi : a ≤ s.stop)
    (ha : a % pageSize = 0) : saneNSegment t (s.split a).1 ∧ saneNSegment t (s.split a).2 := by
  simp only [saneNSegment_iff] at h ⊢
  obtain ⟨-, hstart, hstop, hkind⟩ := h
  have hpred : a - 1 + 1 = a := Nat.sub_add_cancel (Nat.one_le_of_lt hlo)
  refine ⟨⟨le_pred_of_lt hlo, hstart, hpred.symm ▸ ha, hkind⟩, ⟨hhi, ha, hstop, ?_⟩⟩
  rw [saneKind] at hkind ⊢
  cases hk : s.kind with
  | fileC | fileV => simpa only [split, hk] using hkind
  | free | anonC | anonV | shmC | resvn =>
    simpa [split, hk, SegKind.isFile, plain, bare] using hkind

/-- Two sane neighbours make a sane segment. -/
theorem saneNSegment_joined (h1 : saneNSegment t s1) (h2 : saneNSegment t s2)
    (hadj : s1.stop + 1 = s2.start) : saneNSegment t (joined s1 s2) := by
  simp only [saneNSegment_iff] at h1 h2 ⊢
  have hle : s1.start ≤ s2.stop := by omega
  refine ⟨hle, h1.2.1, h2.2.2.1, ?_⟩
  have hkind := h1.2.2.2
  rw [saneKind] at hkind ⊢
  cases hk : s1.kind with
  | fileC | fileV => simpa only [joined, hk] using hkind
  | free | anonC | anonV | shmC | resvn =>
    simpa [joined, hk, SegKind.isMapped, plain, bare] using hkind

end NSegment

end Valgrind.Aspacemgr
