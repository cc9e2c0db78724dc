import Valgrind.Core.LibcAssert
import Valgrind.Memcheck.ByteState

/-!
# Memcheck/MallocWrappers — `memcheck/mc_malloc_wrappers.c`: malloc'd and freed blocks

A block the client holds is an `MC_Chunk` in `malloc_list`.  A freed block is made inaccessible and
queued in one of two freed lists, big blocks apart from small ones; the queued blocks are given back
to the client arena only when a new chunk is created while the queue is over its volume.

The hash tables of chunks are given by the chunks present, most recent first: the chunks of one
table have distinct addresses, and for distinct keys that is what `Core/HashTable` computes.  What
`cli_malloc` answers is an input of each call.
-/

namespace Valgrind.Memcheck

open List

/-! ## The data -/

/-- `MC_AllocKind`. -/
inductive AllocKind where
  | malloc
  | new
  | newVec
  | custom
deriving DecidableEq, Repr

/-- `MC_Chunk`, without the stack traces. -/
structure Chunk where
  data : ℕ
  szB : ℕ
  allockind : AllocKind
deriving DecidableEq, Repr

/-- The errors these functions record. -/
inductive Report where
  /-- `MC_(record_free_error)`. -/
  | free (a : Addr)
  /-- `MC_(record_freemismatch_error)`. -/
  | freeMismatch (mc : Chunk)
  /-- `MC_(record_illegal_mempool_error)`. -/
  | illegalMempool (a : Addr)
  /-- `MC_(record_fishy_value_error)`. -/
  | fishyValue (functionName argumentName : String) (value : UWord)
deriving DecidableEq, Repr

/-- The options that are read. -/
structure Options where
  /-- `MC_(clo_freelist_vol)`. -/
  freelistVol : ℤ
  /-- `MC_(clo_freelist_big_blocks)`. -/
  freelistBigBlocks : ℤ
  /-- `MC_(clo_show_mismatched_frees)`. -/
  showMismatchedFrees : Bool
  /-- `MC_(Malloc_Redzone_SzB)`. -/
  mallocRedzoneSzB : ℕ

/-- The state of the wrappers, and what they have called. -/
structure Heap where
  /-- `MC_(malloc_list)`. -/
  mallocList : List Chunk
  /-- The big freed blocks, from `freed_list_start[0]` on. -/
  freedBig : List Chunk
  /-- The small freed blocks, from `freed_list_start[1]` on. -/
  freedSmall : List Chunk
  /-- `VG_(free_queue_volume)`. -/
  freeQueueVolume : ℤ
  /-- `VG_(free_queue_length)`. -/
  freeQueueLength : ℤ
  /-- The A and V bits of the client. -/
  bytes : ByteMap
  /-- The errors recorded, most recent first. -/
  reports : List Report
  /-- The calls of `VG_(cli_free)`, most recent first, each with `malloc_list` as it was. -/
  released : List (Addr × List Chunk)

/-! ## Tables of chunks -/

/-- `VG_(HT_remove)`. -/
def htRemove (table : List Chunk) (key : Addr) : Option (Chunk × List Chunk) :=
  match table.find? fun mc => mc.data = key with
  | none => none
  | some mc => some (mc, table.eraseP fun mc => mc.data = key)

theorem htRemove_some {table rest : List Chunk} {key : Addr} {mc : Chunk}
    (hrem : htRemove table key = some (mc, rest)) : mc.data = key ∧ table.Perm (mc :: rest) := by
  rw [htRemove] at hrem
  cases hfind : table.find? (fun mc => mc.data = key) with
  | none =>
    rw [hfind] at hrem
    cases hrem
  | some mc' =>
    rw [hfind] at hrem
    obtain ⟨rfl, rfl⟩ := Prod.mk.inj (Option.some.inj hrem)
    obtain ⟨hdata, l₁, l₂, rfl, hbefore⟩ := find?_eq_some_iff_append.mp hfind
    have hnot : ∀ b ∈ l₁, ¬ decide (b.data = key) = true := fun b hb => by
      simpa using hbefore b hb
    have herase : (mc' :: l₂).eraseP (fun mc => mc.data = key) = l₂ :=
      eraseP_cons_of_pos hdata
    rw [eraseP_append_right _ hnot, herase]
    exact ⟨by simpa using hdata, perm_middle⟩

/-- A chunk that alone has its address is the one removed. -/
theorem htRemove_eq {table : List Chunk} {mc : Chunk} (hmem : mc ∈ table)
    (huniq : ∀ c ∈ table, c.data = mc.data → c = mc) :
    ∃ rest, htRemove table mc.data = some (mc, rest) ∧ table.Perm (mc :: rest) := by
  cases hrem : htRemove table mc.data with
  | none =>
    rw [htRemove] at hrem
    split at hrem
    · rename_i hfind
      simpa using find?_eq_none.mp hfind mc hmem
    · cases hrem
  | some found =>
    obtain ⟨hdata, hperm⟩ := htRemove_some hrem
    obtain rfl := huniq found.1 (hperm.mem_iff.mpr (mem_cons_self ..)) hdata
    exact ⟨found.2, rfl, hperm⟩

namespace Heap

variable (o : Options) (h : Heap)

/-! ## The quarantine -/

/-- An error is recorded. -/
def record (r : Report) : Heap := { h with reports := r :: h.reports }

/-- The block at the end of its freed list; at the head where it would be released first anyway. -/
def enqueue (freed : List Chunk) (mc : Chunk) : List Chunk :=
  if freed = [] then [mc]
  else if o.freelistVol ≤ mc.szB then mc :: freed
  else freed ++ [mc]

/-- `add_to_freed_queue`. -/
def addToFreedQueue (mc : Chunk) : Heap :=
  { h with
    freedBig := if o.freelistBigBlocks ≤ mc.szB then enqueue o h.freedBig mc else h.freedBig
    freedSmall := if o.freelistBigBlocks ≤ mc.szB then h.freedSmall else enqueue o h.freedSmall mc
    freeQueueVolume := h.freeQueueVolume + mc.szB
    freeQueueLength := h.freeQueueLength + 1 }

/-- `die_and_free_mem`, without the filling of the block. -/
def dieAndFreeMem (mc : Chunk) (rzB : ℕ) : Heap :=
  addToFreedQueue o
    { h with
      bytes := h.bytes.makeMemNoaccess ((mc.data + (2 ^ 64 - rzB)) % 2 ^ 64)
        ((mc.szB + 2 * rzB) % 2 ^ 64) } mc

@[simp] theorem bytes_dieAndFreeMem (mc : Chunk) (rzB : ℕ) : (dieAndFreeMem o h mc rzB).bytes =
      h.bytes.makeMemNoaccess ((mc.data + (2 ^ 64 - rzB)) % 2 ^ 64) ((mc.szB + 2 * rzB) % 2 ^ 64) :=
  rfl

/-- The loop of `release_oldest_block` over one freed list. -/
def releaseLoop : List Chunk → Heap → Except Abort (List Chunk × Heap)
  | [], h => .ok ([], h)
  | mc1 :: rest, h =>
    if h.freeQueueVolume > o.freelistVol then do
      vgAssert (h.freeQueueVolume - mc1.szB ≥ 0)
      releaseLoop rest
        { h with
          freeQueueVolume := h.freeQueueVolume - mc1.szB
          freeQueueLength := h.freeQueueLength - 1
          released := if mc1.allockind ≠ .custom then (mc1.data, h.mallocList) :: h.released
            else h.released }
    else .ok (mc1 :: rest, h)

/-- `release_oldest_block`: big blocks first. -/
def releaseOldestBlock : Except Abort Heap := do
  vgAssert (h.freeQueueVolume > o.freelistVol)
  vgAssert (h.freedBig ≠ [] ∨ h.freedSmall ≠ [])
  let (freedBig, h) ← releaseLoop o h.freedBig h
  let (freedSmall, h) ← releaseLoop o h.freedSmall h
  return { h with freedBig := freedBig, freedSmall := freedSmall }

/-! ## Blocks of the client -/

/-- What `create_MC_Chunk` does to the queue. -/
def releaseIfFull : Except Abort Heap :=
  if h.freeQueueVolume > o.freelistVol then h.releaseOldestBlock o else .ok h

/-- `create_MC_Chunk`; the size is a field of 62 bits. -/
def createMCChunk (p szB : ℕ) (kind : AllocKind) : Except Abort (Chunk × Heap) := do
  let h ← h.releaseIfFull o
  return (⟨p, szB % 2 ^ 62, kind⟩, h)

/-- `VG_(HT_add_node)` on `malloc_list`. -/
def htAddNode (mc : Chunk) : Heap := { h with mallocList := mc :: h.mallocList }

/-- The second half of `MC_(new_block)`: the block is there, and is noted. -/
def noteBlock (p szB : ℕ) (isZeroed : Bool) (kind : AllocKind) : Except Abort (Addr × Heap) := do
  let (mc, h) ← h.createMCChunk o p szB kind
  let h := h.htAddNode mc
  return (p, { h with
    bytes := if isZeroed then h.bytes.makeMemDefined p szB else h.bytes.makeMemUndefined p szB })

/-- `MC_(new_block)` on `malloc_list`; `cliMalloc` is what `VG_(cli_malloc)` answers, if it is
asked. -/
def newBlock (p szB : ℕ) (isZeroed : Bool) (kind : AllocKind) (cliMalloc : Addr) :
    Except Abort (Addr × Heap) :=
  if p ≠ 0 then do
    vgAssert (kind = .custom)
    h.noteBlock o p szB isZeroed kind
  else do
    vgAssert (kind ≠ .custom)
    if cliMalloc = 0 then return (0, h) else h.noteBlock o cliMalloc szB isZeroed kind

/-- `MC_(record_fishy_value_error)`: a size that is negative as a signed number. -/
def recordFishyValueError (functionName argumentName : String) (value : ℕ) : Bool × Heap :=
  if value < 2 ^ 63 then (false, h)
  else (true, h.record (.fishyValue functionName argumentName value))

/-- The functions that allocate one block of a given size. -/
def allocate (functionName : String) (n : ℕ) (kind : AllocKind) (cliMalloc : Addr) :
    Except Abort (Addr × Heap) :=
  let (fishy, h) := h.recordFishyValueError functionName "size" n
  if fishy then .ok (0, h) else h.newBlock o 0 n false kind cliMalloc

/-- `MC_(malloc)`. -/
def malloc (n : ℕ) (cliMalloc : Addr) : Except Abort (Addr × Heap) :=
  h.allocate o "malloc" n .malloc cliMalloc

/-- `MC_(__builtin_new)`. -/
def builtinNew (n : ℕ) (cliMalloc : Addr) : Except Abort (Addr × Heap) :=
  h.allocate o "__builtin_new" n .new cliMalloc

/-- `MC_(__builtin_vec_new)`. -/
def builtinVecNew (n : ℕ) (cliMalloc : Addr) : Except Abort (Addr × Heap) :=
  h.allocate o "__builtin_vec_new" n .newVec cliMalloc

/-- `MC_(memalign)`; the alignment is passed on. -/
def memalign (n : ℕ) (cliMalloc : Addr) : Except Abort (Addr × Heap) :=
  h.allocate o "memalign" n .malloc cliMalloc

/-- `MC_(calloc)`. -/
def calloc (nmemb size1 : ℕ) (cliMalloc : Addr) : Except Abort (Addr × Heap) :=
  let (fishy, h) := h.recordFishyValueError "calloc" "nmemb" nmemb
  if fishy then .ok (0, h)
  else
    let (fishy, h) := h.recordFishyValueError "calloc" "size" size1
    if fishy then .ok (0, h)
    else h.newBlock o 0 (nmemb * size1 % 2 ^ 64) true .malloc cliMalloc

/-- `record_freemismatch_error`: the chunk is put back while the error is recorded. -/
def recordFreemismatchError (mc : Chunk) : Except Abort Heap :=
  if o.showMismatchedFrees then
    let h := (h.htAddNode mc).record (.freeMismatch mc)
    match htRemove h.mallocList mc.data with
    | none => .error .assertion
    | some (mc', mallocList) => do
      vgAssert (mc' = mc)
      return { h with mallocList := mallocList }
  else .ok h

/-- Check if it is a matching free, delete or delete []. -/
def checkKind (p : ℕ) (kind : AllocKind) (mc : Chunk) : Except Abort Heap :=
  if kind ≠ mc.allockind then do
    vgAssert (p = mc.data)
    h.recordFreemismatchError o mc
  else .ok h

/-- `MC_(handle_free)`; the redzone size is an unsigned int. -/
def handleFree (p rzB : ℕ) (kind : AllocKind) : Except Abort Heap :=
  match htRemove h.mallocList p with
  | none => .ok (h.record (.free p))
  | some (mc, mallocList) => do
    let h ← checkKind o { h with mallocList := mallocList } p kind mc
    return h.dieAndFreeMem o mc (rzB % 2 ^ 32)

/-- `MC_(free)`. -/
def free (p : ℕ) : Except Abort Heap := h.handleFree o p o.mallocRedzoneSzB .malloc

/-- `MC_(__builtin_delete)`. -/
def builtinDelete (p : ℕ) : Except Abort Heap := h.handleFree o p o.mallocRedzoneSzB .new

/-- `MC_(__builtin_vec_delete)`. -/
def builtinVecDelete (p : ℕ) : Except Abort Heap := h.handleFree o p o.mallocRedzoneSzB .newVec

/-- The A and V bits of a block that `MC_(realloc)` moves. -/
def movedBytes (pOld oldSzB aNew newSzB : ℕ) : ByteMap :=
  let rzB := o.mallocRedzoneSzB
  let m := h.bytes.makeMemNoaccess ((aNew + (2 ^ 64 - rzB)) % 2 ^ 64) rzB
  let m :=
    if oldSzB ≥ newSzB then m.copyAddressRangeState newSzB pOld aNew
    else (m.copyAddressRangeState oldSzB pOld aNew).makeMemUndefined ((aNew + oldSzB) % 2 ^ 64)
      (newSzB - oldSzB)
  m.makeMemNoaccess ((aNew + newSzB) % 2 ^ 64) rzB

/-- `MC_(realloc)`, once the new memory is there: the old block is in no table. -/
def moveBlock (oldMc : Chunk) (aNew newSzB : ℕ) : Except Abort (Addr × Heap) := do
  let (newMc, h) ← h.createMCChunk o aNew newSzB .malloc
  let h := h.htAddNode newMc
  let h := { h with bytes := h.movedBytes o oldMc.data oldMc.szB aNew newSzB }
  return (aNew, h.dieAndFreeMem o oldMc o.mallocRedzoneSzB)

/-- `MC_(realloc)`. -/
def realloc (pOld newSzB : ℕ) (cliMalloc : Addr) : Except Abort (Addr × Heap) :=
  let (fishy, h) := h.recordFishyValueError "realloc" "size" newSzB
  if fishy then .ok (0, h)
  else match htRemove h.mallocList pOld with
    | none => .ok (0, h.record (.free pOld))
    | some (oldMc, mallocList) => do
      let h ← checkKind o { h with mallocList := mallocList } pOld .malloc oldMc
      if cliMalloc = 0 then return (0, h.htAddNode oldMc)
      else h.moveBlock o oldMc cliMalloc newSzB

end Heap

end Valgrind.Memcheck
