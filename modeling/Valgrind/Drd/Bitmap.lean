import Valgrind.Core.LibcAssert
import Valgrind.Drd.Bitmap1
import Valgrind.Foundations.KeyedList

/-!
# Drd/Bitmap — `drd/drd_bitmap.c`, `drd/drd_bitmap.h`: access bitmaps

A bitmap has two bits for each address, in second-level bitmaps of 4096 addresses each.  These are
the nodes of an ordered set, in front of which stands a cache of the last nodes looked up, where a
NULL says that there is none.  All bitmaps take their nodes from one pool.

`Bitmaps ι` is the memory of any number of bitmaps, named by `ι`: the nodes by their addresses, the
pool's free list, and each bitmap's cache and set.  The ordered set is the list of its elements in
the order of their keys.
-/

namespace Valgrind.Drd

open KeyedList (find)

/-! ## The memory -/

/-- `BmAccessTypeT`. -/
inductive BmAccessType where
  | eLoad | eStore | eStart | eEnd
deriving DecidableEq, Repr

/-- The two kinds of bits. -/
inductive Access where
  | load | store
deriving DecidableEq, Repr

/-- The access type of a kind of access. -/
def Access.type : Access → BmAccessType
  | .load => .eLoad
  | .store => .eStore

/-- The accesses of one, two, four and eight bytes. -/
inductive AccessSize where
  | one | two | four | eight
deriving DecidableEq, Repr

/-- How many bytes. -/
def AccessSize.bytes : AccessSize → ℕ
  | .one => 1
  | .two => 2
  | .four => 4
  | .eight => 8

/-- `struct bitmap1`. -/
structure Bitmap1 where
  bm0R : Bm0
  bm0W : Bm0
deriving DecidableEq, Repr

namespace Bitmap1

/-- The bits of a kind. -/
def get (p : Bitmap1) : Access → Bm0
  | .load => p.bm0R
  | .store => p.bm0W

/-- Change the bits of some kinds. -/
def modify (p : Bitmap1) (kinds : Access → Bool) (f : Bm0 → Bm0) : Bitmap1 where
  bm0R := if kinds .load then f p.bm0R else p.bm0R
  bm0W := if kinds .store then f p.bm0W else p.bm0W

/-- No bits. -/
def zero : Bitmap1 := ⟨bm0Zero, bm0Zero⟩

/-- The bits of both. -/
def or (l r : Bitmap1) : Bitmap1 := ⟨bm0Or l.bm0R r.bm0R, bm0Or l.bm0W r.bm0W⟩

end Bitmap1

/-- `struct bitmap2`. -/
structure Bitmap2 where
  addr : UWord
  recalc : Bool
  bm1 : Bitmap1
deriving DecidableEq, Repr

/-- The bits of some kinds are changed. -/
def Bitmap2.modifyBits (n : Bitmap2) (kinds : Access → Bool) (f : Bm0 → Bm0) : Bitmap2 :=
  { n with bm1 := n.bm1.modify kinds f }

/-- The address of a `struct bitmap2`. -/
abbrev Bm2Ptr := ℕ

/-- `DRD_BITMAP_N_CACHE_ELEM`. -/
def drdBitmapNCacheElem : ℕ := 4

/-- `struct bitmap`: the cache, whose elements are an `a1` and a `bm2`, and the elements of the set
with their keys. -/
structure Bitmap where
  cache : List (UWord × Option Bm2Ptr)
  oset : List (UWord × Bm2Ptr)
deriving DecidableEq, Repr

/-- The bitmaps, and the pool of nodes they share. -/
structure Bitmaps (ι : Type) where
  node : Bm2Ptr → Bitmap2
  nextFree : List Bm2Ptr
  fresh : Bm2Ptr
  bm : ι → Bitmap

/-! ## The ordered set -/

/-- `VG_(OSetGen_Lookup)`. -/
def osetLookup (oset : List (UWord × Bm2Ptr)) (a1 : UWord) : Option Bm2Ptr := find oset a1

/-- `VG_(OSetGen_Insert)`; a duplicate is refused. -/
def osetInsert (oset : List (UWord × Bm2Ptr)) (e : UWord × Bm2Ptr) :
    Except Abort (List (UWord × Bm2Ptr)) :=
  if (osetLookup oset e.1).isSome then
    .error (.assertion2 "OSet\x7bWord,Gen\x7d_Insert: duplicate element added")
  else .ok (KeyedList.insert oset e)

/-- What an iteration meets after `VG_(OSetGen_ResetIterAt)(oset, &a1)`. -/
def osetFrom (oset : List (UWord × Bm2Ptr)) (a1 : UWord) : List (UWord × Bm2Ptr) :=
  oset.dropWhile fun x => x.1 < a1

/-- `bm_init`. -/
def bmInit : Bitmap where
  cache := List.replicate drdBitmapNCacheElem (2 ^ 64 - 2, none)
  oset := []

namespace Bitmaps

variable {ι : Type} [DecidableEq ι]

/-- Bitmaps that have just been initialised, and an empty pool. -/
def init (junk : Bm2Ptr → Bitmap2) : Bitmaps ι := ⟨junk, [], 0, fun _ => bmInit⟩

/-- One bitmap's struct is changed. -/
def setBm (s : Bitmaps ι) (i : ι) (bm : Bitmap) : Bitmaps ι :=
  { s with bm := Function.update s.bm i bm }

/-- A node is changed. -/
def modifyNode (s : Bitmaps ι) (p : Bm2Ptr) (f : Bitmap2 → Bitmap2) : Bitmaps ι :=
  { s with node := Function.update s.node p (f (s.node p)) }

/-- `VG_(OSetGen_AllocNode)`: an element of the pool, filled with zeros. -/
def allocNode (s : Bitmaps ι) : Bm2Ptr × Bitmaps ι :=
  match s.nextFree with
  | p :: free => (p, { s with nextFree := free }.modifyNode p fun _ => ⟨0, false, .zero⟩)
  | [] => (s.fresh, { s with fresh := s.fresh + 1 }.modifyNode s.fresh fun _ => ⟨0, false, .zero⟩)

/-! ## The cache -/

/-- `bm_cache_lookup`. -/
def bmCacheLookup (s : Bitmaps ι) (i : ι) (a1 : UWord) : Option (Option Bm2Ptr) :=
  find (s.bm i).cache a1

/-- `bm_update_cache`. -/
def bmUpdateCache (s : Bitmaps ι) (i : ι) (a1 : UWord) (bm2 : Option Bm2Ptr) : Bitmaps ι :=
  s.setBm i { s.bm i with cache := ((a1, bm2) :: (s.bm i).cache).take drdBitmapNCacheElem }

/-- `bm2_lookup`. -/
def bm2Lookup (s : Bitmaps ι) (i : ι) (a1 : UWord) : Option Bm2Ptr × Bitmaps ι :=
  match s.bmCacheLookup i a1 with
  | some bm2 => (bm2, s)
  | none =>
    let bm2 := osetLookup (s.bm i).oset a1
    (bm2, s.bmUpdateCache i a1 bm2)

/-- `bm2_lookup_exclusive`. -/
def bm2LookupExclusive (s : Bitmaps ι) (i : ι) (a1 : UWord) : Option Bm2Ptr :=
  match s.bmCacheLookup i a1 with
  | some bm2 => bm2
  | none => osetLookup (s.bm i).oset a1

/-- `bm2_clear`. -/
def bm2Clear (s : Bitmaps ι) (p : Bm2Ptr) : Bitmaps ι :=
  s.modifyNode p fun n => { n with bm1 := .zero }

/-- `bm2_insert`. -/
def bm2Insert (s : Bitmaps ι) (i : ι) (a1 : UWord) : Except Abort (Bm2Ptr × Bitmaps ι) := do
  let (p, s) := s.allocNode
  let s := s.modifyNode p fun n => { n with addr := a1 }
  let oset ← osetInsert (s.bm i).oset (a1, p)
  return (p, (s.setBm i { s.bm i with oset := oset }).bmUpdateCache i a1 (some p))

/-- `bm2_insert_copy`. -/
def bm2InsertCopy (s : Bitmaps ι) (i : ι) (bm2 : Bm2Ptr) : Except Abort (Bitmaps ι) := do
  let (p, s) ← s.bm2Insert i (s.node bm2).addr
  return s.modifyNode p fun n => { n with bm1 := (s.node bm2).bm1 }

/-- Insert a node without accesses. -/
def bm2InsertClear (s : Bitmaps ι) (i : ι) (a1 : UWord) : Except Abort (Bm2Ptr × Bitmaps ι) := do
  let (p, s) ← s.bm2Insert i a1
  return (p, s.bm2Clear p)

/-- `bm2_lookup_or_insert`. -/
def bm2LookupOrInsert (s : Bitmaps ι) (i : ι) (a1 : UWord) : Except Abort (Bm2Ptr × Bitmaps ι) :=
  match s.bmCacheLookup i a1 with
  | some (some p) => .ok (p, s)
  | some none => s.bm2InsertClear i a1
  | none =>
    match osetLookup (s.bm i).oset a1 with
    | some p => .ok (p, s.bmUpdateCache i a1 (some p))
    | none => do
      let (p, s) ← s.bm2InsertClear i a1
      return (p, s.bmUpdateCache i a1 (some p))

/-- `bm2_remove`. -/
def bm2Remove (s : Bitmaps ι) (i : ι) (a1 : UWord) : Except Abort (Bitmaps ι) :=
  match osetLookup (s.bm i).oset a1 with
  | none => .error .nullPointer
  | some p =>
    let oset := (s.bm i).oset.filter fun e => e.1 ≠ a1
    let s := { s with nextFree := p :: s.nextFree }.setBm i { s.bm i with oset := oset }
    .ok (s.bmUpdateCache i a1 none)

/-! ## Loops over a range of addresses -/

/-- `for (b = a1; b < a2; b = b_next)`, where `b_next` is the end of the block of `b`, or `a2`.  The
body may leave the loop with a result.  The fuel is for all second-level blocks twice: a loop that
goes on so long has wrapped round the address space. -/
def blockLoop {σ ρ : Type} (a2 : Addr) (body : Addr → Addr → σ → Except Abort (Option ρ × σ)) :
    ℕ → Addr → σ → Except Abort (Option ρ × σ)
  | 0, _, _ => .error .diverges
  | n + 1, b, s =>
    if b < a2 then do
      let bNext := if firstAddressWithHigherMsb b > a2 then a2 else firstAddressWithHigherMsb b
      match ← body b bNext s with
      | (some r, s) => return (some r, s)
      | (none, s) => blockLoop a2 body n bNext s
    else .ok (none, s)

/-- See `blockLoop`. -/
def blockFuel : ℕ := 2 ^ 53

/-- The first address of a node's block in the range, unless the block is behind it. -/
def blockStart (addr : UWord) (a1 a2 : Addr) : Option Addr :=
  if makeAddress addr 0 < a1 then some a1
  else if makeAddress addr 0 < a2 then some (makeAddress addr 0) else none

/-- The end of a node's block in the range. -/
def blockEnd (addr : UWord) (a2 : Addr) : Addr :=
  if makeAddress ((addr + 1) % 2 ^ 64) 0 < a2 then makeAddress ((addr + 1) % 2 ^ 64) 0 else a2

/-- The positions from `b_start` to `b_end - 1`. -/
def positions (bStart bEnd : Addr) : List UWord :=
  List.range' (addressLsb bStart) (addressLsb (bEnd - 1) + 1 - addressLsb bStart)

/-! ## Recording accesses -/

/-- Set the bits from `b_start` to `b_end - 1`: whole blocks by words. -/
def setBlockBits (bStart bEnd : Addr) (m : Bm0) : Bm0 :=
  if addressLsb bStart = 0 ∧ addressLsb bEnd = 0 then bm0Fill
  else (positions bStart bEnd).foldl bm0Set m

/-- The kinds of bits: one of them. -/
def only (k : Access) : Access → Bool := fun k' => k' = k

/-- The kinds of bits: both. -/
def both : Access → Bool := fun _ => true

/-- The loop body of `bm_access_range_load` and `bm_access_range_store`. -/
def accessRangeBody (i : ι) (k : Access) (a1 a2 : Addr) (b _bNext : Addr) (s : Bitmaps ι) :
    Except Abort (Option Unit × Bitmaps ι) := do
  let (p, s) ← s.bm2LookupOrInsert i (addressMsb b)
  match blockStart (s.node p).addr a1 a2 with
  | none => return (some (), s)
  | some bStart => do
    let bEnd := blockEnd (s.node p).addr a2
    vgAssert (a1 ≤ bStart ∧ bStart < bEnd ∧ bEnd ≠ 0 ∧ bEnd ≤ a2)
    vgAssert (addressMsb bStart = addressMsb (bEnd - 1))
    vgAssert (addressLsb bStart ≤ addressLsb (bEnd - 1))
    return (none, s.modifyNode p fun n => n.modifyBits (only k) (setBlockBits bStart bEnd))

/-- `bm_access_range_load` and `bm_access_range_store`. -/
def bmAccessRangeOf (s : Bitmaps ι) (i : ι) (k : Access) (a1 a2 : Addr) :
    Except Abort (Bitmaps ι) := do
  vgAssert (a1 ≤ a2)
  vgAssert (a2 < firstAddressWithHigherMsb a2)
  let (_, s) ← blockLoop a2 (accessRangeBody i k a1 a2) blockFuel a1 s
  return s

/-- `bm_access_range_load`. -/
def bmAccessRangeLoad (s : Bitmaps ι) (i : ι) := s.bmAccessRangeOf i .load

/-- `bm_access_range_store`. -/
def bmAccessRangeStore (s : Bitmaps ι) (i : ι) := s.bmAccessRangeOf i .store

/-- `bm_access_range`. -/
def bmAccessRange (s : Bitmaps ι) (i : ι) (a1 a2 : Addr) (accessType : BmAccessType) :
    Except Abort (Bitmaps ι) := do
  vgAssert (accessType = .eLoad ∨ accessType = .eStore)
  if accessType = .eLoad then s.bmAccessRangeLoad i a1 a2 else s.bmAccessRangeStore i a1 a2

/-- `bm_access_aligned_load` and `bm_access_aligned_store`. -/
def bmAccessAligned (s : Bitmaps ι) (i : ι) (k : Access) (a1 : Addr) (size : ℕ) :
    Except Abort (Bitmaps ι) := do
  let (p, s) ← s.bm2LookupOrInsert i (addressMsb a1)
  return s.modifyNode p fun n =>
    n.modifyBits (only k) (bm0SetRange · (addressLsb a1) (scaledSize size))

/-- `bm_access_load_1` to `bm_access_store_8`: aligned accesses are in one word; an access of eight
bytes may be two aligned ones of four. -/
def bmAccessSized (s : Bitmaps ι) (i : ι) (k : Access) (a1 : Addr) :
    AccessSize → Except Abort (Bitmaps ι)
  | .one => s.bmAccessAligned i k a1 1
  | .two =>
    if a1 &&& 1 = 0 then s.bmAccessAligned i k a1 2
    else s.bmAccessRange i a1 ((a1 + 2) % 2 ^ 64) k.type
  | .four =>
    if a1 &&& 3 = 0 then s.bmAccessAligned i k a1 4
    else s.bmAccessRange i a1 ((a1 + 4) % 2 ^ 64) k.type
  | .eight =>
    if a1 &&& 7 = 0 then s.bmAccessAligned i k a1 8
    else if a1 &&& 3 = 0 then do
      let s ← s.bmAccessAligned i k a1 4
      s.bmAccessAligned i k ((a1 + 4) % 2 ^ 64) 4
    else s.bmAccessRange i a1 ((a1 + 8) % 2 ^ 64) k.type

/-! ## Queries -/

/-- The loop body of the queries about a range: does some position pass the test? -/
def hasAnyBody (i : ι) (test : Bitmap1 → UWord → Except Abort Bool) (a1 a2 : Addr) (b _bNext : Addr)
    (s : Bitmaps ι) : Except Abort (Option Bool × Bitmaps ι) := do
  let (bm2, s) := s.bm2Lookup i (addressMsb b)
  match bm2 with
  | none => return (none, s)
  | some p =>
    match blockStart (s.node p).addr a1 a2 with
    | none => return (some false, s)
    | some bStart => do
      vgAssert (a1 ≤ bStart ∧ bStart ≤ a2)
      let bEnd := blockEnd (s.node p).addr a2
      vgAssert (a1 ≤ bEnd ∧ bEnd ≤ a2)
      vgAssert (bStart < bEnd)
      vgAssert (addressLsb bStart ≤ addressLsb (bEnd - 1))
      if ← (positions bStart bEnd).anyM (test (s.node p).bm1) then return (some true, s)
      else return (none, s)

/-- A query about a range. -/
def bmHasAnyOf (s : Bitmaps ι) (i : ι) (test : Bitmap1 → UWord → Except Abort Bool) (a1 a2 : Addr) :
    Except Abort (Bool × Bitmaps ι) := do
  let (r, s) ← blockLoop a2 (hasAnyBody i test a1 a2) blockFuel a1 s
  return (r.getD false, s)

/-- `bm_has_any_load`. -/
def bmHasAnyLoad (s : Bitmaps ι) (i : ι) :=
  s.bmHasAnyOf i fun p1 b0 => .ok (bm0IsSet p1.bm0R b0 ≠ 0)

/-- `bm_has_any_store`. -/
def bmHasAnyStore (s : Bitmaps ι) (i : ι) :=
  s.bmHasAnyOf i fun p1 b0 => .ok (bm0IsSet p1.bm0W b0 ≠ 0)

/-- `bm_has_any_access`. -/
def bmHasAnyAccess (s : Bitmaps ι) (i : ι) :=
  s.bmHasAnyOf i fun p1 b0 => .ok (bm0IsSet p1.bm0R b0 ||| bm0IsSet p1.bm0W b0 ≠ 0)

/-- `bm_has_conflict_with`. -/
def bmHasConflictWith (s : Bitmaps ι) (i : ι) (a1 a2 : Addr) (accessType : BmAccessType) :=
  s.bmHasAnyOf i (fun p1 b0 =>
    if accessType = .eLoad then .ok (bm0IsSet p1.bm0W b0 ≠ 0)
    else do
      vgAssert (accessType = .eStore)
      return bm0IsSet p1.bm0R b0 ||| bm0IsSet p1.bm0W b0 ≠ 0) a1 a2

/-- `bm_has_1`. -/
def bmHas1 (s : Bitmaps ι) (i : ι) (a : Addr) (accessType : BmAccessType) : Bool × Bitmaps ι :=
  let (p2, s) := s.bm2Lookup i (addressMsb a)
  match p2 with
  | none => (false, s)
  | some p =>
    let p1 := (s.node p).bm1
    (bm0IsSet (if accessType = .eLoad then p1.bm0R else p1.bm0W) (addressLsb a) ≠ 0, s)

/-- `bm_aligned_load_has_conflict_with` and `bm_aligned_store_has_conflict_with`. -/
def bmAlignedHasConflictWith (s : Bitmaps ι) (i : ι) (k : Access) (a : Addr) (size : ℕ) :
    Bool × Bitmaps ι :=
  let (bm2, s) := s.bm2Lookup i (addressMsb a)
  match bm2 with
  | none => (false, s)
  | some p =>
    let p1 := (s.node p).bm1
    let r := bm0IsAnySet p1.bm0R (addressLsb a) (scaledSize size)
    let w := bm0IsAnySet p1.bm0W (addressLsb a) (scaledSize size)
    match k with
    | .load => (w ≠ 0, s)
    | .store => (r ||| w ≠ 0, s)

/-- `bm_load_1_has_conflict_with` to `bm_store_8_has_conflict_with`. -/
def bmSizedHasConflictWith (s : Bitmaps ι) (i : ι) (k : Access) (a1 : Addr) :
    AccessSize → Except Abort (Bool × Bitmaps ι)
  | .one => .ok (s.bmAlignedHasConflictWith i k a1 1)
  | .two =>
    if a1 &&& 1 = 0 then .ok (s.bmAlignedHasConflictWith i k a1 2)
    else s.bmHasConflictWith i a1 ((a1 + 2) % 2 ^ 64) k.type
  | .four =>
    if a1 &&& 3 = 0 then .ok (s.bmAlignedHasConflictWith i k a1 4)
    else s.bmHasConflictWith i a1 ((a1 + 4) % 2 ^ 64) k.type
  | .eight =>
    if a1 &&& 7 = 0 then .ok (s.bmAlignedHasConflictWith i k a1 8)
    else s.bmHasConflictWith i a1 ((a1 + 8) % 2 ^ 64) k.type

/-- `bm_load_has_conflict_with` and `bm_store_has_conflict_with`. -/
def bmRangeHasConflictWith (s : Bitmaps ι) (i : ι) (k : Access) (a1 a2 : Addr) :=
  s.bmHasConflictWith i a1 a2 k.type

/-! ## Clearing -/

/-- Clear up to a word boundary: the address reached, and the bits. -/
def clearHead (c bNext : Addr) (m : Bm0) : Addr × Bm0 :=
  if uwordLsb (addressLsb c) ≠ 0 then
    let cNext := firstAddressWithHigherUwordMsb c
    let cNext := if cNext > bNext then bNext else cNext
    (cNext, bm0ClearRange m (addressLsb c) (scaledSize (cNext - c)))
  else (c, m)

/-- Clear whole words. -/
def clearMiddle (c bNext : Addr) (m : Bm0) : Addr × Bm0 :=
  if uwordLsb (addressLsb c) = 0 then
    let cNext := firstAddressWithSameUwordLsb bNext
    if cNext > c then
      (cNext, bm0ClearWords m (uwordMsb (addressLsb c)) (scaledSize ((cNext - c) / 8)))
    else (c, m)
  else (c, m)

/-- Clear the positions from `b` to `b_next - 1`. -/
def clearBlockBits (b bNext : Addr) (m : Bm0) : Bm0 :=
  let (c, m) := clearHead b bNext m
  let (c, m) := clearMiddle c bNext m
  bm0ClearRange m (addressLsb c) (scaledSize (bNext - c))

/-- The loop body of `bm_clear`, `bm_clear_load` and `bm_clear_store`. -/
def clearBody (i : ι) (kinds : Access → Bool) (b bNext : Addr) (s : Bitmaps ι) :
    Except Abort (Option Unit × Bitmaps ι) :=
  match s.bm2LookupExclusive i (addressMsb b) with
  | none => .ok (none, s)
  | some p => .ok (none, s.modifyNode p fun n => n.modifyBits kinds (clearBlockBits b bNext))

/-- `bm_clear`, `bm_clear_load` and `bm_clear_store`. -/
def bmClearOf (s : Bitmaps ι) (i : ι) (kinds : Access → Bool) (a1 a2 : Addr) :
    Except Abort (Bitmaps ι) := do
  vgAssert (a1 ≠ 0)
  vgAssert (a1 ≤ a2)
  let (_, s) ← blockLoop a2 (clearBody i kinds) blockFuel a1 s
  return s

/-- `bm_clear`. -/
def bmClear (s : Bitmaps ι) (i : ι) := s.bmClearOf i both

/-- `bm_clear_load`. -/
def bmClearLoad (s : Bitmaps ι) (i : ι) := s.bmClearOf i (only .load)

/-- `bm_clear_store`. -/
def bmClearStore (s : Bitmaps ι) (i : ι) := s.bmClearOf i (only .store)

/-- `bm_test_and_clear`. -/
def bmTestAndClear (s : Bitmaps ι) (i : ι) (a1 a2 : Addr) : Except Abort (Bool × Bitmaps ι) := do
  let (result, s) ← s.bmHasAnyAccess i a1 a2
  let s ← s.bmClear i a1 a2
  return (result, s)

/-! ## Merging and marking -/

/-- `bm2_merge`. -/
def bm2Merge (s : Bitmaps ι) (bm2l bm2r : Bm2Ptr) : Except Abort (Bitmaps ι) := do
  vgAssert ((s.node bm2l).addr = (s.node bm2r).addr)
  return s.modifyNode bm2l fun n => { n with bm1 := n.bm1.or (s.node bm2r).bm1 }

/-- `for (VG_(OSetGen_ResetIter)(oset); (bm2 = VG_(OSetGen_Next)(oset)) != 0; )`, for a body that
leaves the set as it is. -/
def forEach (body : Bm2Ptr → Bitmaps ι → Except Abort (Bitmaps ι)) :
    List (UWord × Bm2Ptr) → Bitmaps ι → Except Abort (Bitmaps ι)
  | [], s => .ok s
  | (_, bm2) :: rest, s => do
    let s ← body bm2 s
    forEach body rest s

/-- The loop body of `bm_merge2`. -/
def merge2Body (lhs : ι) (bm2r : Bm2Ptr) (s : Bitmaps ι) : Except Abort (Bitmaps ι) :=
  match osetLookup (s.bm lhs).oset (s.node bm2r).addr with
  | some bm2l => do
    vgAssert (bm2l ≠ bm2r)
    s.bm2Merge bm2l bm2r
  | none => s.bm2InsertCopy lhs bm2r

/-- `bm_merge2`. -/
def bmMerge2 (s : Bitmaps ι) (lhs rhs : ι) : Except Abort (Bitmaps ι) := do
  vgAssert (lhs ≠ rhs)
  forEach (merge2Body lhs) (s.bm rhs).oset s

/-- `bm_unmark`. -/
def bmUnmark (s : Bitmaps ι) (i : ι) : Except Abort (Bitmaps ι) :=
  forEach (fun bm2 s => .ok (s.modifyNode bm2 fun n => { n with recalc := false })) (s.bm i).oset s

/-- The loop body of `bm_mark`. -/
def markBody (bml : ι) (bm2r : Bm2Ptr) (s : Bitmaps ι) : Except Abort (Bitmaps ι) := do
  let (bm2l, s) ← s.bm2LookupOrInsert bml (s.node bm2r).addr
  return s.modifyNode bm2l fun n => { n with recalc := true }

/-- `bm_mark`. -/
def bmMark (s : Bitmaps ι) (bml bmr : ι) : Except Abort (Bitmaps ι) :=
  forEach (markBody bml) (s.bm bmr).oset s

/-- `bm_clear_marked`. -/
def bmClearMarked (s : Bitmaps ι) (i : ι) : Except Abort (Bitmaps ι) :=
  forEach (fun bm2 s => .ok (if (s.node bm2).recalc then s.bm2Clear bm2 else s)) (s.bm i).oset s

/-- The loop body of `bm_merge2_marked`. -/
def merge2MarkedBody (lhs : ι) (bm2r : Bm2Ptr) (s : Bitmaps ι) : Except Abort (Bitmaps ι) :=
  match osetLookup (s.bm lhs).oset (s.node bm2r).addr with
  | some bm2l =>
    if (s.node bm2l).recalc then do
      vgAssert (bm2l ≠ bm2r)
      s.bm2Merge bm2l bm2r
    else .ok s
  | none => .ok s

/-- `bm_merge2_marked`. -/
def bmMerge2Marked (s : Bitmaps ι) (lhs rhs : ι) : Except Abort (Bitmaps ι) := do
  vgAssert (lhs ≠ rhs)
  forEach (merge2MarkedBody lhs) (s.bm rhs).oset s

/-- The loop of `bm_remove_cleared_marked`, on what the iterator has still to meet; `n` bounds the
elements. -/
def removeClearedLoop (i : ι) : ℕ → List (UWord × Bm2Ptr) → Bitmaps ι → Except Abort (Bitmaps ι)
  | _, [], s => .ok s
  | 0, _ :: _, _ => .error .diverges
  | n + 1, (_, bm2) :: rest, s =>
    let a1 := (s.node bm2).addr
    if (s.node bm2).recalc then do
      let (any, s) ← s.bmHasAnyAccess i (makeAddress a1 0) (makeAddress ((a1 + 1) % 2 ^ 64) 0)
      if any then removeClearedLoop i n rest s
      else do
        let s ← s.bm2Remove i a1
        removeClearedLoop i n (osetFrom (s.bm i).oset a1) s
    else removeClearedLoop i n rest s

/-- `bm_remove_cleared_marked`. -/
def bmRemoveClearedMarked (s : Bitmaps ι) (i : ι) : Except Abort (Bitmaps ι) :=
  removeClearedLoop i (s.bm i).oset.length (s.bm i).oset s

/-- `bm_cleanup`: the nodes go back to the pool. -/
def bmCleanup (s : Bitmaps ι) (i : ι) : Bitmaps ι :=
  { s with nextFree := ((s.bm i).oset.map Prod.snd).reverse ++ s.nextFree }.setBm i
    { s.bm i with oset := [] }

end Bitmaps

end Valgrind.Drd
