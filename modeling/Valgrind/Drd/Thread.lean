import Valgrind.Drd.Bitmap
import Valgrind.Drd.VectorClock

/-!
# Drd/Thread — `drd/drd_thread.c`, `drd/drd_segment.c`: segments and the conflict set

Each thread has a list of segments, each with a vector clock, a reference count and a bitmap of the
accesses recorded in it.  The conflict set of the running thread is the bitmap of what is recorded in
segments of other threads that are not ordered with its latest segment.

A thread's doubly linked list is a list of segments, from `sg_first` to `sg_last`; the number of
threads is a parameter.
-/

namespace Valgrind.Drd

/-- A `Segment*`. -/
abbrev Seg := ℕ

/-- What is in a segment besides its links and its bitmap. -/
structure Segment where
  vc : VectorClock
  refcnt : ℤ

/-- The bitmaps: `g_conflict_set`, and those of the segments. -/
inductive BmId where
  | conflictSet
  | sg (q : Seg)
deriving DecidableEq, Repr

/-- `g_threadinfo`, `g_drd_running_tid` and all segments; `n` is `DRD_N_THREADS`. -/
structure Threads (n : ℕ) where
  valid : Fin n → Bool
  segs : Fin n → List Seg
  sg : Seg → Segment
  bms : Bitmaps BmId
  runningTid : ℕ

namespace Threads

variable {n : ℕ}

/-- `DRD_INVALID_THREADID`. -/
def drdInvalidThreadid : ℕ := 0

/-- `IsValidDrdThreadId`. -/
def isValidDrdThreadId (t : Threads n) (j : Fin n) : Bool := j.val ≠ drdInvalidThreadid ∧ t.valid j

/-- `q->vc`. -/
def vc (t : Threads n) (q : Seg) : VectorClock := (t.sg q).vc

/-- The segments of a thread from `sg_last` on, by `thr_prev`. -/
def fromLast (t : Threads n) (j : Fin n) : List Seg := (t.segs j).reverse

/-- `sg_last`, which is dereferenced. -/
def sgLast (t : Threads n) (j : Fin n) : Except Abort Seg :=
  match (t.segs j).getLast? with
  | some q => .ok q
  | none => .error .nullPointer

/-- `thread_get_vc`. -/
def threadGetVc (t : Threads n) (tid : Fin n) : Except Abort VectorClock := do
  vgAssert (tid.val ≠ drdInvalidThreadid)
  match (t.segs tid).getLast? with
  | some q => return t.vc q
  | none => .error .assertion

/-- A loop over all threads. -/
def forThreads {σ : Type} (body : Fin n → σ → Except Abort σ) : List (Fin n) → σ → Except Abort σ
  | [], s => .ok s
  | j :: js, s => do
    let s ← body j s
    forThreads body js s

/-! ## The conflict set -/

/-- Merge what is recorded in a segment, if the segment is not ordered with the clock. -/
def mergeIfConcurrent (t : Threads n) (vc : VectorClock) (q : Seg) (s : Bitmaps BmId) :
    Except Abort (Bitmaps BmId) := do
  if ← vcLte (t.vc q) vc then return s
  else if ← vcLte vc (t.vc q) then return s
  else s.bmMerge2 .conflictSet (.sg q)

/-- The loop over one thread's segments in `thread_compute_conflict_set`. -/
def computeLoop (t : Threads n) (vc : VectorClock) :
    List Seg → Bitmaps BmId → Except Abort (Bitmaps BmId)
  | [], s => .ok s
  | q :: rest, s => do
    let s ← t.mergeIfConcurrent vc q s
    computeLoop t vc rest s

/-- `thread_compute_conflict_set`, on `g_conflict_set`. -/
def threadComputeConflictSet (t : Threads n) (tid : Fin n) : Except Abort (Threads n) := do
  vgAssert (tid.val ≠ drdInvalidThreadid)
  vgAssert (tid.val = t.runningTid)
  let s := (t.bms.bmCleanup .conflictSet).setBm .conflictSet bmInit
  let p ← t.sgLast tid
  let s ← forThreads (fun j s =>
    if j ≠ tid ∧ t.isValidDrdThreadId j then t.computeLoop (t.vc p) (t.fromLast j) s else .ok s)
    (List.finRange n) s
  return { t with bms := s }

/-- Mark what is recorded in a segment that leaves or enters the conflict set. -/
def markIf (q : Seg) (old new : Bool) (s : Bitmaps BmId) : Except Abort (Bitmaps BmId) :=
  if old ≠ new then s.bmMark .conflictSet (.sg q) else .ok s

/-- The first loop over one thread's segments in `thread_update_conflict_set`, and the segments it
leaves. -/
def markNewer (t : Threads n) (oldVc newVc : VectorClock) :
    List Seg → Bitmaps BmId → Except Abort (List Seg × Bitmaps BmId)
  | [], s => .ok ([], s)
  | q :: rest, s => do
    if ← vcLte (t.vc q) newVc then return (q :: rest, s)
    else do
      let includedInOld := !(← vcLte oldVc (t.vc q))
      let includedInNew := !(← vcLte newVc (t.vc q))
      let s ← markIf q includedInOld includedInNew s
      markNewer t oldVc newVc rest s

/-- The second loop. -/
def markOlder (t : Threads n) (oldVc newVc : VectorClock) :
    List Seg → Bitmaps BmId → Except Abort (Bitmaps BmId)
  | [], s => .ok s
  | q :: rest, s => do
    if ← vcLte (t.vc q) oldVc then return s
    else do
      let includedInOld := !(← vcLte oldVc (t.vc q))
      let below := ← vcLte (t.vc q) newVc
      let includedInNew := !below && !(← vcLte newVc (t.vc q))
      let s ← markIf q includedInOld includedInNew s
      markOlder t oldVc newVc rest s

/-- Both loops. -/
def markThread (t : Threads n) (tid : Fin n) (oldVc newVc : VectorClock) (j : Fin n)
    (s : Bitmaps BmId) : Except Abort (Bitmaps BmId) :=
  if j = tid ∨ ¬ t.isValidDrdThreadId j then .ok s
  else do
    let (rest, s) ← t.markNewer oldVc newVc (t.fromLast j) s
    t.markOlder oldVc newVc rest s

/-- The loop over one thread's segments that merges into the marked blocks. -/
def remergeLoop (t : Threads n) (vc : VectorClock) :
    List Seg → Bitmaps BmId → Except Abort (Bitmaps BmId)
  | [], s => .ok s
  | q :: rest, s => do
    if ← vcLte (t.vc q) vc then return s
    else if ← vcLte vc (t.vc q) then remergeLoop t vc rest s
    else do
      let s ← s.bmMerge2Marked .conflictSet (.sg q)
      remergeLoop t vc rest s

/-- `thread_update_conflict_set`; its last assertion is vacuous unless `--verify-conflict-set=yes`
is given. -/
def threadUpdateConflictSet (t : Threads n) (tid : Fin n) (oldVc : VectorClock) :
    Except Abort (Threads n) := do
  vgAssert (tid.val ≠ drdInvalidThreadid)
  vgAssert (tid.val = t.runningTid)
  let newVc ← t.threadGetVc tid
  let lte ← vcLte oldVc newVc
  vgAssert (lte = true)
  let s ← t.bms.bmUnmark .conflictSet
  let s ← forThreads (t.markThread tid oldVc newVc) (List.finRange n) s
  let s ← s.bmClearMarked .conflictSet
  let p ← t.sgLast tid
  let s ← forThreads (fun j s =>
    if j ≠ tid ∧ t.isValidDrdThreadId j then t.remergeLoop (t.vc p) (t.fromLast j) s else .ok s)
    (List.finRange n) s
  let s ← s.bmRemoveClearedMarked .conflictSet
  return { t with bms := s }

end Threads

end Valgrind.Drd
