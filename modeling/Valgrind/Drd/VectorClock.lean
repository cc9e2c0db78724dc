import Valgrind.Core.LibcAssert

/-!
# Drd/VectorClock — `drd/drd_vc.c`, `drd/drd_vc.h`: vector clocks

A vector clock is an array of `(threadid, count)` pairs in the order of their threads.  The array is
the struct's own `preallocated` one while it is small enough, and a heap block afterwards;
`vc_reserve` moves it.  `vc_combine` counts the shared threads to size the array and then merges
`rhs` into `result` in place, inserting by shifting.

What the functions need of a clock is `VectorClock.Stored`: the array has room for `capacity`
elements and is where `capacity` says.  Over it the loops are read as an alignment of two lists of
elements, as they are for the timestamps of helgrind.
-/

namespace Valgrind.Drd

/-! ## The struct and its array -/

/-- `VC_PREALLOCATED`. -/
def vcPreallocated : ℕ := 8

/-- `DrdThreadId`, a `UInt`. -/
abbrev DrdThreadId := Fin (2 ^ 32)

instance uInt_ne : NeZero (2 ^ 32) := ⟨by decide⟩

/-- `VCElem`: the counter of a thread. -/
structure VCElem where
  threadid : DrdThreadId
  count : Fin (2 ^ 32)
deriving DecidableEq, Repr

/-- Where `vc->vc` points: nowhere, at the struct's own array, or at a block of the heap. -/
inductive VCArray where
  | null
  | preallocated
  | heap (block : List VCElem)
deriving DecidableEq, Repr

/-- `VectorClock`. -/
structure VectorClock where
  capacity : ℕ
  size : ℕ
  vc : VCArray
  preallocated : List VCElem
deriving DecidableEq, Repr

/-- Fresh memory for `n` elements; nothing is known about what is in it. -/
def freshElems (junk : ℕ → VCElem) (n : ℕ) : List VCElem := (List.range n).map junk

/-- `VG_(realloc)`: a block of `n` elements that begins like `block`. -/
def reallocElems (junk : ℕ → VCElem) (block : List VCElem) (n : ℕ) : List VCElem :=
  block.take n ++ freshElems junk (n - block.length)

namespace VectorClock

/-- The memory `vc->vc` points at. -/
def array (v : VectorClock) : List VCElem :=
  match v.vc with
  | .null => []
  | .preallocated => v.preallocated
  | .heap block => block

/-- The struct with other contents of that memory. -/
def withArray (v : VectorClock) (l : List VCElem) : VectorClock :=
  match v.vc with
  | .null => v
  | .preallocated => { v with preallocated := l }
  | .heap _ => { v with vc := .heap l }

/-- `vc->vc[i]`. -/
def elem (v : VectorClock) (i : ℕ) : Except Abort VCElem :=
  match v.array[i]? with
  | some e => .ok e
  | none => .error .wildAccess

/-- `vc->vc[i] = e`. -/
def write (v : VectorClock) (i : ℕ) (e : VCElem) : Except Abort VectorClock :=
  if i < v.array.length then .ok (v.withArray (v.array.set i e)) else .error .wildAccess

/-- `vc->size++`. -/
def incSize (v : VectorClock) : VectorClock := { v with size := (v.size + 1) % 2 ^ 32 }

/-- The elements in use. -/
def elems (v : VectorClock) : List VCElem := v.array.take v.size

/-! ## `vc_reserve`, `vc_init`, `vc_check` -/

/-- The new array when the capacity grows. -/
def grown (junk : ℕ → VCElem) (v : VectorClock) (newCapacity : ℕ) : Except Abort VCArray :=
  if v.vc ≠ .null ∧ v.capacity > vcPreallocated then do
    vgAssert (v.vc ≠ .null ∧ v.vc ≠ .preallocated ∧ v.capacity > vcPreallocated)
    return .heap (reallocElems junk v.array newCapacity)
  else if v.vc ≠ .null ∧ newCapacity > vcPreallocated then do
    vgAssert ((v.vc = .null ∨ v.vc = .preallocated) ∧ newCapacity > vcPreallocated
      ∧ v.capacity ≤ vcPreallocated)
    return .heap (reallocElems junk (v.preallocated.take v.capacity) newCapacity)
  else if v.vc ≠ .null then do
    vgAssert (v.vc = .preallocated ∧ newCapacity ≤ vcPreallocated ∧ v.capacity ≤ vcPreallocated)
    return v.vc
  else if newCapacity > vcPreallocated then do
    vgAssert (v.vc = .null ∧ newCapacity > vcPreallocated ∧ v.capacity = 0)
    return .heap (freshElems junk newCapacity)
  else do
    vgAssert (v.vc = .null ∧ newCapacity ≤ vcPreallocated ∧ v.capacity = 0)
    return .preallocated

/-- The body of `vc_reserve`. -/
def resized (junk : ℕ → VCElem) (v : VectorClock) (newCapacity : ℕ) : Except Abort VectorClock :=
  if newCapacity > v.capacity then do
    let vc ← v.grown junk newCapacity
    return { v with vc := vc, capacity := newCapacity }
  else if newCapacity = 0 ∧ v.vc ≠ .null then .ok { v with vc := .null, capacity := 0 }
  else .ok v

end VectorClock

/-- `vc_reserve`. -/
def vcReserve (junk : ℕ → VCElem) (v : VectorClock) (newCapacity : ℕ) :
    Except Abort VectorClock := do
  vgAssert (v.capacity > vcPreallocated ∨ v.vc = .null ∨ v.vc = .preallocated)
  let v ← v.resized junk newCapacity
  vgAssert (newCapacity = 0 ∨ v.vc ≠ .null)
  vgAssert (v.capacity > vcPreallocated ∨ v.vc = .null ∨ v.vc = .preallocated)
  return v

/-- `VG_(memcpy)` of elements into the array. -/
def VectorClock.copyIn (v : VectorClock) (l : List VCElem) : Except Abort VectorClock :=
  if l.length ≤ v.array.length then .ok (v.withArray (l ++ v.array.drop l.length))
  else .error .wildAccess

/-- `vc_init`; `vcelem` is the array given, if any. -/
def vcInit (junk : ℕ → VCElem) (v : VectorClock) (vcelem : Option (List VCElem)) (size : ℕ) :
    Except Abort VectorClock := do
  let v ← vcReserve junk { v with size := 0, capacity := 0, vc := .null } size
  vgAssert (size = 0 ∨ v.vc ≠ .null)
  match vcelem with
  | none => return v
  | some l =>
    let v ← v.copyIn (l.take size)
    return { v with size := size }

/-- `vc_cleanup`. -/
def vcCleanup (junk : ℕ → VCElem) (v : VectorClock) : Except Abort VectorClock := vcReserve junk v 0

/-- `vc_copy`. -/
def vcCopy (junk : ℕ → VCElem) (new rhs : VectorClock) : Except Abort VectorClock :=
  vcInit junk new (if rhs.vc = .null then none else some rhs.array) rhs.size

/-- The loop of `vc_check`. -/
def vcCheckLoop (v : VectorClock) : ℕ → ℕ → Except Abort Unit
  | 0, _ => .ok ()
  | n + 1, i => do
    let e ← v.elem (i - 1)
    let f ← v.elem i
    vgAssert (e.threadid < f.threadid)
    vcCheckLoop v n (i + 1)

/-- `vc_check`. -/
def vcCheck (v : VectorClock) : Except Abort Unit := do
  vgAssert (v.size ≤ v.capacity)
  vcCheckLoop v (v.size - 1) 1

/-! ## `vc_lte`, `vc_combine`, `vc_increment` -/

/-- `while (j < vc->size && vc->vc[j].threadid < t) j++;` with `n` elements left. -/
def skipBelow (v : VectorClock) (t : DrdThreadId) : ℕ → ℕ → Except Abort ℕ
  | 0, j => .ok j
  | n + 1, j => do
    let e ← v.elem j
    if e.threadid < t then skipBelow v t n (j + 1) else .ok j

/-- The loop of `vc_lte`, `n` elements of `vc1` to go. -/
def vcLteLoop (vc1 vc2 : VectorClock) : ℕ → ℕ → ℕ → Except Abort Bool
  | 0, _, _ => .ok true
  | n + 1, i, j => do
    let e ← vc1.elem i
    let j ← skipBelow vc2 e.threadid (vc2.size - j) j
    if j ≥ vc2.size then return false
    else do
      let f ← vc2.elem j
      if f.threadid > e.threadid then return false
      else if e.count > f.count then return false
      else vcLteLoop vc1 vc2 n (i + 1) j

/-- `vc_lte`. -/
def vcLte (vc1 vc2 : VectorClock) : Except Abort Bool := vcLteLoop vc1 vc2 vc1.size 0 0

/-- The first loop of `vc_combine`: count the shared threads. -/
def sharedLoop (result rhs : VectorClock) : ℕ → ℕ → ℕ → ℕ → Except Abort ℕ
  | 0, _, _, shared => .ok shared
  | n + 1, i, j, shared => do
    let e ← result.elem i
    let j ← skipBelow rhs e.threadid (rhs.size - j) j
    if j ≥ rhs.size then return shared
    else do
      let f ← rhs.elem j
      sharedLoop result rhs n (i + 1) j (if e.threadid = f.threadid then shared + 1 else shared)

/-- `for (k = size; k > i; k--) vc[k] = vc[k - 1];` with `n = k - i` iterations to go. -/
def shiftUp (v : VectorClock) (i : ℕ) : ℕ → Except Abort VectorClock
  | 0 => .ok v
  | n + 1 => do
    let e ← v.elem (i + n)
    let v ← v.write (i + n + 1) e
    shiftUp v i n

/-- Bring one element of `rhs` in, at index `i` of `result`. -/
def combineOne (result : VectorClock) (i : ℕ) (f : VCElem) : Except Abort VectorClock :=
  if i ≥ result.size then result.incSize.write i f
  else do
    let e ← result.elem i
    if e.threadid > f.threadid then do
      let result ← shiftUp result i (result.size - i)
      result.incSize.write i f
    else do
      vgAssert (e.threadid = f.threadid)
      if f.count > e.count then result.write i { e with count := f.count } else return result

/-- The second loop of `vc_combine`, `n` elements of `rhs` to go. -/
def combineLoop (rhs : VectorClock) : ℕ → ℕ → VectorClock → ℕ → Except Abort VectorClock
  | 0, _, result, _ => .ok result
  | n + 1, j, result, i => do
    let f ← rhs.elem j
    let i ← skipBelow result f.threadid (result.size - i) i
    let result ← combineOne result i f
    combineLoop rhs n (j + 1) result i

/-- `if (new_size > result->capacity) vc_reserve(result, new_size);` -/
def ensureRoom (junk : ℕ → VCElem) (result : VectorClock) (newSize : ℕ) :
    Except Abort VectorClock :=
  if newSize > result.capacity then vcReserve junk result newSize else .ok result

/-- `vc_combine`. -/
def vcCombine (junk : ℕ → VCElem) (result rhs : VectorClock) : Except Abort VectorClock := do
  let shared ← sharedLoop result rhs result.size 0 0 0
  vcCheck result
  let newSize := (result.size + rhs.size - shared) % 2 ^ 32
  let result ← ensureRoom junk result newSize
  vcCheck result
  let result ← combineLoop rhs rhs.size 0 result 0
  vcCheck result
  vgAssert (result.size = newSize)
  return result

/-- The loop of `vc_increment`: the clock with the thread's count incremented, if it has one. -/
def incrementLoop (v : VectorClock) (tid : DrdThreadId) : ℕ → ℕ → Except Abort (Option VectorClock)
  | 0, _ => .ok none
  | n + 1, i => do
    let e ← v.elem i
    if e.threadid = tid then do
      let v ← v.write i { e with count := e.count + 1 }
      vgAssert (e.count < e.count + 1)
      return some v
    else incrementLoop v tid n (i + 1)

/-- `vc_increment`. -/
def vcIncrement (junk : ℕ → VCElem) (v : VectorClock) (tid : DrdThreadId) :
    Except Abort VectorClock := do
  match ← incrementLoop v tid v.size 0 with
  | some v => return v
  | none =>
    let vc2 ← vcInit junk ⟨0, 0, .null, freshElems junk vcPreallocated⟩ (some [⟨tid, 1⟩]) 1
    let v ← vcCombine junk v vc2
    let _ ← vcCleanup junk vc2
    return v

/-- `vc_min` between its calls of `vc_check`, on `result` from `i` and `rhs` from `j` on.  At a match
`i` stays. -/
def vcMin : List VCElem → List VCElem → Except Abort (List VCElem)
  | q, [] => .ok q
  | [], _ :: _ => .ok []
  | e :: q, f :: bs =>
    if e.threadid < f.threadid then do return { e with count := 0 } :: (← vcMin q (f :: bs))
    else if e.threadid ≤ f.threadid then do
      vgAssert (e.threadid = f.threadid)
      vcMin ({ e with count := min f.count e.count } :: q) bs
    else vcMin (e :: q) bs
termination_by q bs => q.length + bs.length

end Valgrind.Drd
