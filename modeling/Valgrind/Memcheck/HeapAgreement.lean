import Valgrind.Memcheck.FreedQueue

/-!
# Memcheck/HeapAgreement — heap blocks, quarantine and addressability agree

Beside the tables of the wrappers there is a ledger: the blocks that `VG_(cli_malloc)` returned and
`VG_(cli_free)` has not been called for.  Giving back a block that is not on the ledger fails.

What an operation can do to the tables, the A bits and the ledger is listed once (`Change`).  From
that, along every run in which the client arena hands out memory that is clear of the blocks on the
ledger (`heap_agrees`): the heap addresses that are accessible are those of the blocks in
`malloc_list`; the ledger has the chunks of `malloc_list` and of the two freed lists, each once; and
a block is given back once, when it is no longer in `malloc_list`.
-/

namespace Valgrind.Memcheck

open List Nat Heap ByteMap Chunk ByteState List.Subset

/-! ## Operations and the ledger -/

/-- A call of the client, with the answer of `VG_(cli_malloc)` where that may be asked. -/
inductive HeapOp where
  | malloc (n : ℕ) (cliMalloc : Addr)
  | builtinNew (n : ℕ) (cliMalloc : Addr)
  | builtinVecNew (n : ℕ) (cliMalloc : Addr)
  | memalign (alignB n : ℕ) (cliMalloc : Addr)
  | calloc (nmemb size1 : ℕ) (cliMalloc : Addr)
  | realloc (pOld : Addr) (newSzB : ℕ) (cliMalloc : Addr)
  | free (p : Addr)
  | builtinDelete (p : Addr)
  | builtinVecDelete (p : Addr)
deriving DecidableEq, Repr

namespace HeapOp

/-- How many bytes are asked for. -/
def size : HeapOp → ℕ
  | .malloc n _ | .builtinNew n _ | .builtinVecNew n _ | .memalign _ n _ | .realloc _ n _ => n
  | .calloc nmemb size1 _ => nmemb * size1 % 2 ^ 64
  | .free _ | .builtinDelete _ | .builtinVecDelete _ => 0

/-- What `VG_(cli_malloc)` answers. -/
def cliMalloc : HeapOp → Addr
  | .malloc _ a | .builtinNew _ a | .builtinVecNew _ a | .memalign _ _ a | .calloc _ _ a
  | .realloc _ _ a => a
  | .free _ | .builtinDelete _ | .builtinVecDelete _ => 0

end HeapOp

/-- Carry out a call; one that frees returns nothing. -/
def Heap.step (o : Options) (h : Heap) : HeapOp → Except Abort (Addr × Heap)
  | .malloc n a => h.malloc o n a
  | .builtinNew n a => h.builtinNew o n a
  | .builtinVecNew n a => h.builtinVecNew o n a
  | .memalign _ n a => h.memalign o n a
  | .calloc nmemb size1 a => h.calloc o nmemb size1 a
  | .realloc pOld newSzB a => h.realloc o pOld newSzB a
  | .free p => do return (0, ← h.free o p)
  | .builtinDelete p => do return (0, ← h.builtinDelete o p)
  | .builtinVecDelete p => do return (0, ← h.builtinVecDelete o p)

/-- A block of the client arena. -/
structure Block where
  addr : ℕ
  size : ℕ
deriving DecidableEq, Repr

/-- The block of a chunk. -/
def Chunk.block (mc : Chunk) : Block := ⟨mc.data, mc.szB⟩

/-- `VG_(cli_free)` takes a block off the ledger. -/
def cliFree (held : List Block) (a : Addr) : Except Abort (List Block) :=
  if held.any fun b => b.addr = a then .ok (held.eraseP fun b => b.addr = a)
  else .error .assertion

/-- The calls of `VG_(cli_free)`, most recent first. -/
def cliFrees : List (Addr × List Chunk) → List Block → Except Abort (List Block)
  | [], held => .ok held
  | (a, _) :: older, held => do
    let held ← cliFrees older held
    cliFree held a

/-- The wrappers and the ledger. -/
structure World where
  heap : Heap
  /-- The blocks that were returned and not given back. -/
  held : List Block

/-- A call: the block that is returned is put on the ledger, and those given back are taken off. -/
def World.step (o : Options) (w : World) (op : HeapOp) : Except Abort (Addr × World) := do
  let (p, heap) ← w.heap.step o op
  let held := if p = 0 then w.held else ⟨p, op.size⟩ :: w.held
  let held ← cliFrees (heap.released.take (heap.released.length - w.heap.released.length)) held
  return (p, ⟨heap, held⟩)

/-! ## What a call can do -/

/-- Some of the freed blocks are given back. -/
structure Drained (h h' : Heap) (gone : List Chunk) : Prop where
  mallocList : h'.mallocList = h.mallocList
  freed : h.freed.Perm (gone ++ h'.freed)
  volume : h'.freeQueueVolume = h.freeQueueVolume - volumeOf gone
  bytes : h'.bytes = h.bytes
  released : h'.released = logOf h.mallocList gone ++ h.released

/-- Nothing changes but the reports, and the order of `malloc_list`. -/
structure Untouched (h h' : Heap) : Prop where
  mallocList : h'.mallocList.Perm h.mallocList
  freed : h'.freed = h.freed
  volume : h'.freeQueueVolume = h.freeQueueVolume
  bytes : h'.bytes = h.bytes
  released : h'.released = h.released

/-- What a call does: nothing but an error report; a new block; a block that is freed; a block that
moves.  A block that is taken out of `malloc_list` leaves what one has to add it to. -/
inductive Change (o : Options) (h : Heap) (op : HeapOp) : Addr → Heap → Prop
  | same {h' : Heap} (hsame : Untouched h h') : Change o h op 0 h'
  | alloc {h₁ : Heap} {mc : Chunk} {gone : List Chunk} {s : ByteState} (hpos : op.cliMalloc ≠ 0)
      (hmc : mc.block = ⟨op.cliMalloc, op.size % 2 ^ 62⟩) (hkind : mc.allockind ≠ .custom)
      (hdrained : Drained h h₁ gone) (hs : s ≠ .noaccess)
      (hop : ∀ pOld n a, op ≠ .realloc pOld n a) :
      Change o h op op.cliMalloc { h₁ with
        mallocList := mc :: h₁.mallocList
        bytes := h₁.bytes.setRange op.cliMalloc op.size s }
  | free {h₁ : Heap} {mc : Chunk} (htaken : Untouched h (h₁.htAddNode mc))
      (hop : ∀ pOld n a, op ≠ .realloc pOld n a) :
      Change o h op 0 (h₁.dieAndFreeMem o mc (o.mallocRedzoneSzB % 2 ^ 32))
  | moved {h₁ h₂ : Heap} {old : Chunk} {n a : ℕ} {gone : List Chunk}
      (hop : op = .realloc old.data n a) (hpos : a ≠ 0) (htaken : Untouched h (h₁.htAddNode old))
      (hdrained : Drained h₁ h₂ gone) :
      Change o h op a (Heap.dieAndFreeMem o { h₂ with
        mallocList := ⟨a, n % 2 ^ 62, .malloc⟩ :: h₂.mallocList
        bytes := h₂.movedBytes o old.data old.szB a n } old o.mallocRedzoneSzB)

/-! ## Calls return -/

section Returns

variable {o : Options} {h : Heap} {mc : Chunk} {kind : AllocKind}

/-- What the queue needs: it counts the volume of what is in it, and that was allocated. -/
structure QueueOk (h : Heap) : Prop where
  volume : h.freeQueueVolume = volumeOf h.freed
  kind : ∀ mc ∈ h.freed, mc.allockind ≠ .custom

theorem untouched_record (r : Report) : Untouched h (h.record r) := ⟨.refl _, rfl, rfl, rfl, rfl⟩

theorem untouched_of_eq {h' : Heap} (hh' : h' = h) : Untouched h h' :=
  hh' ▸ ⟨.refl _, rfl, rfl, rfl, rfl⟩

/-- A size that looks negative is turned down, with a report. -/
theorem recordFishyValueError_spec (functionName argumentName : String) (value : ℕ) :
    ∃ fishy h', h.recordFishyValueError functionName argumentName value = (fishy, h')
      ∧ Untouched h h' ∧ (fishy = false → h' = h) := by
  rw [recordFishyValueError]
  split_ifs
  · exact ⟨false, h, rfl, untouched_of_eq rfl, fun _ => rfl⟩
  · exact ⟨true, _, rfl, untouched_record _, nofun⟩

/-- A chunk that is put back is the one found. -/
theorem checkKind_spec {p : ℕ} (kind : AllocKind) (hp : p = mc.data) :
    ∃ h', h.checkKind o p kind mc = .ok h' ∧ Untouched h h' := by
  rw [checkKind]
  split_ifs with hkind
  · have hrem : htRemove (mc :: h.mallocList) mc.data = some (mc, h.mallocList) := by
      rw [htRemove, find?_cons_of_pos (by simp), eraseP_cons_of_pos (by simp)]
    rw [vgAssert_bind hp, recordFreemismatchError]
    split_ifs
    · refine ⟨h.record (.freeMismatch mc), ?_, untouched_record _⟩
      simp only [htAddNode, record, hrem]
      rw [vgAssert_bind trivial, pure_eq_ok]
    · exact ⟨h, rfl, untouched_of_eq rfl⟩
  · exact ⟨h, rfl, untouched_of_eq rfl⟩

/-- A chunk is taken out of the table, and its kind is checked. -/
theorem taken_of_htRemove {rest : List Chunk} {p : ℕ}
    (hrem : htRemove h.mallocList p = some (mc, rest)) (kind : AllocKind) :
    ∃ h₁, Heap.checkKind o { h with mallocList := rest } p kind mc = .ok h₁
      ∧ Untouched h (h₁.htAddNode mc) ∧ mc.data = p := by
  obtain ⟨hdata, hperm⟩ := htRemove_some hrem
  obtain ⟨h₁, hok, hsame⟩ := checkKind_spec (o := o) (h := { h with mallocList := rest }) kind
    hdata.symm
  exact ⟨h₁, hok, { hsame with mallocList := (hsame.mallocList.cons mc).trans hperm.symm }, hdata⟩

theorem handleFree_change {op : HeapOp} (hop : ∀ pOld n a, op ≠ .realloc pOld n a) (p : ℕ)
    (kind : AllocKind) :
    ∃ h', h.handleFree o p o.mallocRedzoneSzB kind = .ok h' ∧ Change o h op 0 h' := by
  rw [handleFree]
  cases hrem : htRemove h.mallocList p with
  | none => exact ⟨_, rfl, .same (untouched_record _)⟩
  | some found =>
    obtain ⟨mc, rest⟩ := found
    obtain ⟨h₁, hok, htaken, -⟩ := taken_of_htRemove (o := o) hrem kind
    dsimp only
    rw [hok, ok_bind, pure_eq_ok]
    exact ⟨_, rfl, .free htaken hop⟩

variable (hq : QueueOk h) (hvol : 0 ≤ o.freelistVol)
include hq hvol

theorem releaseIfFull_drained : ∃ h' gone, h.releaseIfFull o = .ok h' ∧ Drained h h' gone := by
  obtain ⟨h', big, small, hok, hr⟩ := releaseIfFull_spec hq.volume hvol
  have hperm : h.freed.Perm ((big ++ small) ++ h'.freed) := by
    rw [freed, freed, hr.freedBig, hr.freedSmall, append_assoc, append_assoc]
    exact (perm_append_comm_assoc ..).append_left _
  have hall : (big ++ small).filter (·.allockind ≠ .custom) = big ++ small :=
    filter_eq_self.mpr fun mc hmc =>
      decide_eq_true (hq.kind mc (hperm.mem_iff.mpr (mem_append_left _ hmc)))
  refine ⟨h', big ++ small, hok, ?_, hperm, congrArg freeQueueVolume hr.eq, ?_, ?_⟩
  · rw [hr.eq]
    rfl
  · rw [hr.eq]
    rfl
  · rw [hr.eq]
    exact congrArg (logOf h.mallocList · ++ h.released) hall

/-- A new block. -/
theorem newBlock_change (op : HeapOp) (hop : ∀ pOld n a, op ≠ .realloc pOld n a)
    (hkind : kind ≠ .custom) (isZeroed : Bool) :
    ∃ p h', h.newBlock o 0 op.size isZeroed kind op.cliMalloc = .ok (p, h')
      ∧ Change o h op p h' := by
  rw [newBlock, if_neg (not_not.mpr rfl), vgAssert_bind hkind]
  split_ifs with hnull
  · exact ⟨0, h, rfl, .same ⟨.refl _, rfl, rfl, rfl, rfl⟩⟩
  · obtain ⟨h₁, gone, hok, hdrained⟩ := releaseIfFull_drained (o := o) hq hvol
    have hs : (if isZeroed then defined else .undefined) ≠ .noaccess := by
      split_ifs
      · exact defined_ne_noaccess
      · exact undefined_ne_noaccess
    have hmc : (⟨op.cliMalloc, op.size % 2 ^ 62, kind⟩ : Chunk).block
        = ⟨op.cliMalloc, op.size % 2 ^ 62⟩ := rfl
    refine ⟨op.cliMalloc, _, ?_, .alloc hnull hmc hkind hdrained hs hop⟩
    rw [noteBlock, createMCChunk, hok, ok_bind, pure_eq_ok, ok_bind]
    dsimp only
    rw [htAddNode, pure_eq_ok]
    cases isZeroed <;> rfl

theorem allocate_change (op : HeapOp) (hop : ∀ pOld n a, op ≠ .realloc pOld n a)
    (functionName : String) (hkind : kind ≠ .custom) :
    ∃ p h', h.allocate o functionName op.size kind op.cliMalloc = .ok (p, h')
      ∧ Change o h op p h' := by
  obtain ⟨fishy, h₁, heq, hsame, hclean⟩ :=
    recordFishyValueError_spec (h := h) functionName "size" op.size
  rw [allocate, heq]
  cases fishy with
  | true => exact ⟨0, h₁, rfl, .same hsame⟩
  | false =>
    rw [hclean rfl]
    exact newBlock_change hq hvol op hop hkind false

theorem calloc_change (nmemb size1 a : ℕ) :
    ∃ p h', h.calloc o nmemb size1 a = .ok (p, h') ∧ Change o h (.calloc nmemb size1 a) p h' := by
  obtain ⟨fishy, h₁, heq₁, hsame₁, hclean₁⟩ :=
    recordFishyValueError_spec (h := h) "calloc" "nmemb" nmemb
  obtain ⟨fishy', h₂, heq₂, hsame₂, hclean₂⟩ :=
    recordFishyValueError_spec (h := h) "calloc" "size" size1
  rw [calloc, heq₁]
  cases fishy with
  | true => exact ⟨0, h₁, rfl, .same hsame₁⟩
  | false =>
    dsimp only
    rw [hclean₁ rfl, if_neg Bool.false_ne_true, heq₂]
    cases fishy' with
    | true => exact ⟨0, h₂, rfl, .same hsame₂⟩
    | false =>
      rw [hclean₂ rfl]
      have hkind : AllocKind.malloc ≠ .custom := nofun
      exact newBlock_change hq hvol (.calloc nmemb size1 a) nofun hkind true

theorem realloc_change (pOld n a : ℕ) :
    ∃ p h', h.realloc o pOld n a = .ok (p, h') ∧ Change o h (.realloc pOld n a) p h' := by
  obtain ⟨fishy, h₀, heq, hsame, hclean⟩ := recordFishyValueError_spec (h := h) "realloc" "size" n
  rw [realloc, heq]
  cases fishy with
  | true => exact ⟨0, h₀, rfl, .same hsame⟩
  | false =>
    dsimp only
    rw [hclean rfl, if_neg Bool.false_ne_true]
    cases hrem : htRemove h.mallocList pOld with
    | none => exact ⟨0, _, rfl, .same (untouched_record _)⟩
    | some found =>
      obtain ⟨old, rest⟩ := found
      obtain ⟨h₁, hok, htaken, rfl⟩ := taken_of_htRemove (o := o) hrem .malloc
      dsimp only
      rw [hok, ok_bind]
      split_ifs with hnull
      · exact ⟨0, _, rfl, .same htaken⟩
      · have hq₁ : QueueOk h₁ := by
          have hfreed : h₁.freed = h.freed := htaken.freed
          have hvolume : h₁.freeQueueVolume = h.freeQueueVolume := htaken.volume
          exact ⟨by rw [hvolume, hfreed, hq.volume], by rw [hfreed]; exact hq.kind⟩
        obtain ⟨h₂, gone, hfull, hdrained⟩ := releaseIfFull_drained (o := o) hq₁ hvol
        refine ⟨a, _, ?_, .moved rfl hnull htaken hdrained⟩
        rw [moveBlock, createMCChunk, hfull, ok_bind, pure_eq_ok, ok_bind]
        rfl

/-- **A call returns, and does what the list says.** -/
theorem step_change (op : HeapOp) :
    ∃ p h', h.step o op = .ok (p, h') ∧ Change o h op p h' := by
  have hfree : ∀ {op : HeapOp} (p : ℕ) (kind : AllocKind), (∀ pOld n a, op ≠ .realloc pOld n a) →
      ∃ q h', (do return (0, ← h.handleFree o p o.mallocRedzoneSzB kind)
        : Except Abort (Addr × Heap)) = .ok (q, h') ∧ Change o h op q h' := by
    intro op p kind hop
    obtain ⟨h', hok, hc⟩ := handleFree_change (o := o) (h := h) hop p kind
    exact ⟨0, h', by rw [hok, ok_bind, pure_eq_ok], hc⟩
  cases op with
  | malloc n a => exact allocate_change hq hvol (.malloc n a) nofun "malloc" (by decide)
  | builtinNew n a =>
    exact allocate_change hq hvol (.builtinNew n a) nofun "__builtin_new" (by decide)
  | builtinVecNew n a =>
    exact allocate_change hq hvol (.builtinVecNew n a) nofun "__builtin_vec_new" (by decide)
  | memalign alignB n a =>
    exact allocate_change hq hvol (.memalign alignB n a) nofun "memalign" (by decide)
  | calloc nmemb size1 a => exact calloc_change hq hvol nmemb size1 a
  | realloc pOld n a => exact realloc_change hq hvol pOld n a
  | free p => exact hfree p .malloc nofun
  | builtinDelete p => exact hfree p .new nofun
  | builtinVecDelete p => exact hfree p .newVec nofun

end Returns

/-! ## Blocks clear of each other -/

section Clear

/-- Two blocks with their redzones share no byte. -/
def Block.Clear (rzB : ℕ) (b c : Block) : Prop :=
  b.addr + b.size + 2 * rzB ≤ c.addr ∨ c.addr + c.size + 2 * rzB ≤ b.addr

/-- A block with its redzones in the heap area, where no address is near the end of the word. -/
structure Block.Placed (rzB : ℕ) (area : Set ℕ) (b : Block) : Prop where
  lower : rzB ≤ b.addr
  upper : b.addr + b.size + rzB ≤ 2 ^ 62
  inArea : ∀ x, b.addr - rzB ≤ x → x < b.addr + b.size + rzB → x ∈ area

/-- An address in the payload of a chunk. -/
def Chunk.Has (mc : Chunk) (x : ℕ) : Prop := mc.data ≤ x ∧ x < mc.data + mc.szB

/-- The addresses of an area that are accessible are those of the chunks. -/
def Accessible (area : Set ℕ) (m : ByteMap) (l : List Chunk) : Prop :=
  ∀ x ∈ area, m x ≠ .noaccess ↔ ∃ mc ∈ l, mc.Has x

variable {rzB : ℕ} {area : Set ℕ} {m : ByteMap} {l l' : List Chunk} {mc : Chunk}

theorem Block.Clear.addr_ne {b c : Block} (h : b.Clear rzB c) (hrz : 0 < rzB) :
    b.addr ≠ c.addr := by
  rw [Block.Clear] at h
  omega

theorem Accessible.perm (h : Accessible area m l) (hperm : l.Perm l') : Accessible area m l' :=
  fun x hx => (h x hx).trans (by simp only [hperm.mem_iff])

theorem Block.Placed.bounds (h : mc.block.Placed rzB area) :
    rzB ≤ mc.data ∧ mc.data + mc.szB + rzB ≤ 2 ^ 62 := ⟨h.lower, h.upper⟩

/-- A block becomes accessible. -/
theorem Accessible.cons (h : Accessible area m l) (harea : ∀ x ∈ area, x < 2 ^ 64)
    (hp : mc.block.Placed rzB area) {s : ByteState} (hs : s ≠ .noaccess) :
    Accessible area (m.setRange mc.data mc.szB s) (mc :: l) := by
  intro x hx
  obtain ⟨-, hupper⟩ := hp.bounds
  rw [setRange_apply (by omega) (harea x hx), exists_mem_cons_iff, ← h x hx]
  split_ifs with hin
  · exact iff_of_true hs (.inl hin)
  · exact ⟨.inr, fun hor => hor.resolve_left hin⟩

/-- A block and its redzones become noaccess. -/
theorem Accessible.erase (h : Accessible area m (mc :: l)) (harea : ∀ x ∈ area, x < 2 ^ 64)
    (hp : mc.block.Placed rzB area) (hclear : ∀ c ∈ l, mc.block.Clear rzB c.block) :
    Accessible area (m.makeMemNoaccess (mc.data - rzB) (mc.szB + 2 * rzB)) l := by
  intro x hx
  obtain ⟨hlower, hupper⟩ := hp.bounds
  rw [makeMemNoaccess_apply (by omega) (harea x hx)]
  split_ifs with hin
  · refine iff_of_false (not_not.mpr rfl) ?_
    rintro ⟨c, hc, hlo, hhi⟩
    have hcl := hclear c hc
    simp only [Block.Clear, block] at hcl
    omega
  · rw [h x hx, exists_mem_cons_iff]
    refine ⟨fun hor => hor.resolve_left fun hhas => hin ?_, .inr⟩
    obtain ⟨hlo, hhi⟩ := hhas
    omega

end Clear

/-! ## A block that moves -/

section Moved

variable {o : Options} {h : Heap} {area : Set ℕ} {old : Chunk} {l : List Chunk} {rzB : ℕ}
  (new : Chunk) (hrz : o.mallocRedzoneSzB = rzB) (hold : old.block.Placed rzB area)
  (hnew : new.block.Placed rzB area)
include hrz hold hnew

/-- **The bytes of a block that moves**: the new payload has what the old one had, as far as it
goes, and the rest is undefined. -/
theorem movedBytes_apply (hclear : new.block.Clear rzB old.block) {x : ℕ} (hx : x < 2 ^ 64) :
    h.movedBytes o old.data old.szB new.data new.szB x =
      if new.data ≤ x ∧ x < new.data + new.szB then
        if x < new.data + old.szB then h.bytes (old.data + (x - new.data)) else .undefined
      else if new.data - rzB ≤ x ∧ x < new.data + new.szB + rzB
        then .noaccess else h.bytes x := by
  obtain ⟨hlower, hupper⟩ := hold.bounds
  obtain ⟨hlower', hupper'⟩ := hnew.bounds
  simp only [Block.Clear, block] at hclear
  have hfront : (new.data + (2 ^ 64 - rzB)) % 2 ^ 64 = new.data - rzB := by omega
  -- The bytes that are copied are outside the new block, and so not yet changed.
  have hcopy : ∀ len ≤ old.szB, len ≤ new.szB → ((h.bytes.makeMemNoaccess
      (new.data - rzB) rzB).copyAddressRangeState len old.data
        new.data) x = if new.data ≤ x ∧ x < new.data + len then h.bytes (old.data + (x - new.data))
      else if new.data - rzB ≤ x ∧ x < new.data then .noaccess else h.bytes x := by
    intro len hle hle'
    rw [copyAddressRangeState_apply (by omega) (by omega) hx]
    split_ifs with hin hfar
    · rw [makeMemNoaccess_apply (by omega) (by omega), if_neg (by omega)]
    all_goals
      rw [makeMemNoaccess_apply (by omega) hx]
      first | rw [if_pos (by omega)] | rw [if_neg (by omega)]
  rw [movedBytes, hrz, hfront, mod_eq_of_lt (show new.data + new.szB < 2 ^ 64 by omega),
    makeMemNoaccess_apply (by omega) hx]
  by_cases hge : old.szB ≥ new.szB
  · rw [if_pos hge, hcopy _ hge le_rfl]
    split_ifs <;> first | rfl | omega
  · rw [if_neg hge, mod_eq_of_lt (show new.data + old.szB < 2 ^ 64 by omega),
      makeMemUndefined, setRange_apply (by omega) hx, hcopy _ le_rfl (by omega)]
    split_ifs <;> first | rfl | omega

/-- Both blocks are accessible in between. -/
theorem accessible_movedBytes (hacc : Accessible area h.bytes (old :: l))
    (harea : ∀ x ∈ area, x < 2 ^ 64) (hclear : ∀ c ∈ old :: l, new.block.Clear rzB c.block) :
    Accessible area (h.movedBytes o old.data old.szB new.data new.szB) (old :: new :: l) := by
  intro x hx
  have hapart := hclear old (mem_cons_self ..)
  have hnear : ∀ c ∈ old :: l, c.Has x → ¬ (new.data - rzB ≤ x
      ∧ x < new.data + new.szB + rzB) := by
    intro c hc hhas
    obtain ⟨hlower, -⟩ := hnew.bounds
    have hcl := hclear c hc
    simp only [Block.Clear, block] at hcl
    have hhas : c.data ≤ x ∧ x < c.data + c.szB := hhas
    omega
  have hswap : (∃ c ∈ old :: new :: l, c.Has x) ↔ new.Has x ∨ ∃ c ∈ old :: l, c.Has x := by
    simp only [exists_mem_cons_iff]
    tauto
  rw [movedBytes_apply new hrz hold hnew hapart (harea x hx), hswap]
  split_ifs with hin hcopied hredzone
  · -- A copied byte was accessible in the old block.
    refine iff_of_true ?_ (.inl hin)
    obtain ⟨hlower, -⟩ := hold.bounds
    have hmem : old.data + (x - new.data) ∈ area :=
      hold.inArea _ (show old.data - rzB ≤ _ by omega)
        (show _ < old.data + old.szB + rzB by omega)
    exact (hacc _ hmem).mpr ⟨old, mem_cons_self .., le_add_right _ _, by omega⟩
  · exact iff_of_true undefined_ne_noaccess (.inl hin)
  · refine iff_of_false (not_not.mpr rfl) ?_
    rintro (hhas | ⟨c, hc, hhas⟩)
    · exact hin hhas
    · exact hnear c hc hhas hredzone
  · rw [hacc x hx]
    exact ⟨.inr, fun hor => hor.resolve_left hin⟩

end Moved

/-! ## The invariant -/

/-- All chunks in the tables. -/
def Heap.chunks (h : Heap) : List Chunk := h.mallocList ++ h.freed

/-- The options as the command line and the client arena leave them. -/
structure Configured (o : Options) : Prop where
  redzone_pos : 0 < o.mallocRedzoneSzB
  redzone_lt : o.mallocRedzoneSzB < 2 ^ 32
  freelistVol_nonneg : 0 ≤ o.freelistVol

/-- The chunks are blocks clear of each other, the queue counts its volume, what is accessible is
what was allocated, and no block was given back while it was in `malloc_list`. -/
structure Inv (o : Options) (area : Set ℕ) (h : Heap) : Prop where
  placed : ∀ mc ∈ h.chunks, mc.block.Placed o.mallocRedzoneSzB area ∧ mc.allockind ≠ .custom
  clear : h.chunks.Pairwise fun c c' => c.block.Clear o.mallocRedzoneSzB c'.block
  volume : h.freeQueueVolume = volumeOf h.freed
  accessible : Accessible area h.bytes h.mallocList
  log : ∀ e ∈ h.released, ∀ mc ∈ e.2, mc.data ≠ e.1

section

variable {o : Options} {area : Set ℕ} {h h' h₁ : Heap} {op : HeapOp} {p : Addr} {rzB : ℕ}

theorem Inv.queueOk (hinv : Inv o area h) : QueueOk h :=
  ⟨hinv.volume, fun mc hmc => (hinv.placed mc (mem_append_right _ hmc)).2⟩

theorem chunks_dieAndFreeMem (mc : Chunk) (rzB : ℕ) :
    (h.dieAndFreeMem o mc rzB).chunks.Perm (mc :: h.chunks) :=
  ((freed_dieAndFreeMem mc rzB).append_left h.mallocList).trans perm_middle

/-- The clearness of a list of chunks does not depend on their order. -/
theorem clear_perm {l l' : List Chunk} (hperm : l.Perm l')
    (hl : l.Pairwise fun c c' => c.block.Clear rzB c'.block) :
    l'.Pairwise fun c c' => c.block.Clear rzB c'.block :=
  hperm.pairwise hl fun h => h.symm

/-- What a call does to the chunks: some are added, and some are given back. -/
structure Turnover (op : HeapOp) (p : Addr) (h h' : Heap) (added gone : List Chunk) : Prop where
  chunks : (added ++ h.chunks).Perm (gone ++ h'.chunks)
  added : if p = 0 then added = [] else ∃ mc, added = [mc] ∧ p = op.cliMalloc
    ∧ mc.block = ⟨op.cliMalloc, op.size % 2 ^ 62⟩ ∧ mc.allockind ≠ .custom
  released : ∃ l, h'.released = logOf l gone ++ h.released ∧ l ⊆ h.mallocList
  gone : gone ⊆ h.freed
  volume : h.freeQueueVolume = volumeOf h.freed → h'.freeQueueVolume = volumeOf h'.freed

theorem Untouched.chunks (hsame : Untouched h h') : h.chunks.Perm h'.chunks := by
  rw [Heap.chunks, Heap.chunks, hsame.freed]
  exact hsame.mallocList.symm.append_right _

theorem Untouched.turnover (hsame : Untouched h h') : Turnover op 0 h h' [] [] where
  chunks := hsame.chunks
  added := rfl
  released := ⟨h.mallocList, hsame.released, refl _⟩
  gone := nil_subset _
  volume hv := by rw [hsame.volume, hsame.freed, hv]

theorem Drained.volume_eq {gone : List Chunk} (hd : Drained h h₁ gone)
    (hv : h.freeQueueVolume = volumeOf h.freed) : h₁.freeQueueVolume = volumeOf h₁.freed := by
  rw [hd.volume, hv, volumeOf_perm hd.freed, volumeOf_append]
  omega

theorem Change.turnover (hc : Change o h op p h') :
    ∃ added gone, Turnover op p h h' added gone := by
  cases hc with
  | same hsame => exact ⟨[], [], hsame.turnover⟩
  | alloc hpos hmc hkind hd hs hop =>
    rename_i h₁ mc gone s
    refine ⟨[mc], gone, ?_, ?_, ⟨h.mallocList, hd.released, refl _⟩,
      fun c hc => hd.freed.mem_iff.mpr (mem_append_left _ hc), fun hv => hd.volume_eq hv⟩
    · rw [chunks, chunks]
      dsimp only
      rw [hd.mallocList, singleton_append]
      refine (List.Perm.cons mc (hd.freed.append_left _)).trans ?_
      exact (perm_append_comm_assoc (mc :: h.mallocList) gone _)
    · rw [if_neg hpos]
      exact ⟨mc, rfl, rfl, hmc, hkind⟩
  | free htaken hop =>
    rename_i h₁ mc
    refine ⟨[], [], ?_, rfl, ⟨h.mallocList, htaken.released, refl _⟩,
      nil_subset _, fun hv => volume_dieAndFreeMem _ _ ?_⟩
    · exact htaken.chunks.trans (chunks_dieAndFreeMem mc _).symm
    · exact htaken.volume.trans (hv.trans (congrArg volumeOf htaken.freed.symm))
  | moved hop hpos htaken hd =>
    rename_i h₁ h₂ old n gone
    subst hop
    have hsame : h₁.freed = h.freed := htaken.freed
    refine ⟨[⟨p, n % 2 ^ 62, .malloc⟩], gone, ?_, ?_, ⟨h₁.mallocList, ?_, ?_⟩, fun c hc => ?_,
      fun hv => volume_dieAndFreeMem _ _ (hd.volume_eq ?_)⟩
    · -- Both sides have the new chunk, the old one, what stays in either table, and what goes.
      refine perm_iff_count.mpr fun c => ?_
      have hd' := hd.freed.count_eq c
      rw [count_append, count_append, (chunks_dieAndFreeMem old _).count_eq,
        htaken.chunks.count_eq]
      simp only [chunks, htAddNode, freed, hd.mallocList, count_append,
        count_cons, count_nil] at hd' ⊢
      omega
    · rw [if_neg hpos]
      exact ⟨_, rfl, rfl, rfl, by simp⟩
    · exact hd.released.trans (congrArg (logOf h₁.mallocList gone ++ ·) htaken.released)
    · exact fun c hc => htaken.mallocList.mem_iff.mp (mem_cons_of_mem old hc)
    · rw [← hsame]
      exact hd.freed.mem_iff.mpr (mem_append_left _ hc)
    · exact htaken.volume.trans (hv.trans (congrArg volumeOf hsame.symm))

/-- The block that `VG_(cli_malloc)` returns is in the heap area and clear of the blocks held. -/
def Granted (o : Options) (area : Set ℕ) (held : List Block) (op : HeapOp) : Prop :=
  op.cliMalloc = 0 ∨ (⟨op.cliMalloc, op.size⟩ : Block).Placed o.mallocRedzoneSzB area
    ∧ ∀ b ∈ held, (⟨op.cliMalloc, op.size⟩ : Block).Clear o.mallocRedzoneSzB b

theorem Block.Placed.size_lt {b : Block} (hp : b.Placed rzB area) (hrz : 0 < rzB) :
    b.size % 2 ^ 62 = b.size := by
  have hlower := hp.lower
  have hupper := hp.upper
  exact mod_eq_of_lt (by omega)

/-- A chunk that is added is placed, and clear of the others. -/
theorem Turnover.added_ok {added gone : List Chunk} (ht : Turnover op p h h' added gone)
    (ho : Configured o) (hg : Granted o area (h.chunks.map Chunk.block) op) :
    (∀ mc ∈ added, mc.block.Placed o.mallocRedzoneSzB area ∧ mc.allockind ≠ .custom
      ∧ mc.block = ⟨op.cliMalloc, op.size⟩)
    ∧ (∀ mc ∈ added, ∀ c ∈ h.chunks, mc.block.Clear o.mallocRedzoneSzB c.block)
    ∧ added.map Chunk.block = if p = 0 then [] else [⟨p, op.size⟩] := by
  have hadded := ht.added
  split_ifs at hadded with hp
  · subst hadded
    simp [hp]
  · obtain ⟨mc, rfl, rfl, hmc, hkind⟩ := hadded
    obtain ⟨hplaced, hclear⟩ := hg.resolve_left hp
    rw [hplaced.size_lt ho.redzone_pos] at hmc
    refine ⟨forall_mem_singleton.mpr ⟨hmc ▸ hplaced, hkind, hmc⟩,
      forall_mem_singleton.mpr fun c hc => ?_, ?_⟩
    · rw [hmc]
      exact hclear _ (mem_map_of_mem hc)
    · rw [if_neg hp, map_singleton, hmc]

/-- The chunks stay clear of each other, those given back included. -/
theorem Turnover.clear {added gone : List Chunk} (ht : Turnover op p h h' added gone)
    (hinv : Inv o area h) (ho : Configured o)
    (hg : Granted o area (h.chunks.map Chunk.block) op) :
    (gone ++ h'.chunks).Pairwise fun c c' => c.block.Clear o.mallocRedzoneSzB c'.block := by
  obtain ⟨-, haddedClear, -⟩ := ht.added_ok ho hg
  refine clear_perm ht.chunks (pairwise_append.mpr ⟨?_, hinv.clear, haddedClear⟩)
  have hadded := ht.added
  split_ifs at hadded
  · rw [hadded]
    exact .nil
  · obtain ⟨mc, rfl, -⟩ := hadded
    exact pairwise_singleton _ _

/-- A placed block does not wrap around with its redzones. -/
theorem bytes_dieAndFreeMem_of_placed {mc : Chunk} (hp : mc.block.Placed rzB area) :
    (h.dieAndFreeMem o mc rzB).bytes
      = h.bytes.makeMemNoaccess (mc.data - rzB) (mc.szB + 2 * rzB) := by
  obtain ⟨hlower, hupper⟩ := hp.bounds
  have hstart : (mc.data + (2 ^ 64 - rzB)) % 2 ^ 64 = mc.data - rzB := by omega
  rw [bytes_dieAndFreeMem, hstart, mod_eq_of_lt (by omega)]

/-- A chunk that is taken out of `malloc_list` is placed, and clear of the chunks left there. -/
theorem Inv.taken {mc : Chunk} (hinv : Inv o area h)
    (htaken : Untouched h (h₁.htAddNode mc)) :
    mc.block.Placed o.mallocRedzoneSzB area
      ∧ (∀ c ∈ h₁.mallocList, mc.block.Clear o.mallocRedzoneSzB c.block)
      ∧ Accessible area h₁.bytes (mc :: h₁.mallocList) := by
  have hperm : (mc :: h₁.mallocList).Perm h.mallocList := htaken.mallocList
  have hmem : mc ∈ h.mallocList := hperm.mem_iff.mp (mem_cons_self ..)
  have hclear := clear_perm hperm.symm (pairwise_append.mp hinv.clear).1
  have hbytes : h₁.bytes = h.bytes := htaken.bytes
  rw [hbytes]
  exact ⟨(hinv.placed mc (mem_append_left _ hmem)).1, (pairwise_cons.mp hclear).1,
    hinv.accessible.perm hperm.symm⟩

section

variable (hc : Change o h op p h') (hinv : Inv o area h) (ho : Configured o)
  (harea : ∀ x ∈ area, x < 2 ^ 64) (hg : Granted o area (h.chunks.map Chunk.block) op)
include hc hinv ho harea hg

/-- **What is accessible after a call** is what `malloc_list` says. -/
theorem Change.accessible : Accessible area h'.bytes h'.mallocList := by
  cases hc with
  | same hsame =>
    rw [hsame.bytes]
    exact hinv.accessible.perm hsame.mallocList.symm
  | alloc hpos hmc hkind hd hs hop =>
    rename_i h₁ mc gone s
    obtain ⟨hplaced, -⟩ := hg.resolve_left hpos
    rw [show op.size % 2 ^ 62 = op.size from hplaced.size_lt ho.redzone_pos] at hmc
    obtain ⟨hdata, hszB⟩ := Block.mk.inj hmc
    dsimp only
    rw [hd.bytes, hd.mallocList, ← hdata, ← hszB]
    exact hinv.accessible.cons harea (hmc ▸ hplaced) hs
  | free htaken hop =>
    rename_i h₁ mc
    obtain ⟨hplaced, hclear, hacc⟩ := hinv.taken htaken
    rw [mod_eq_of_lt ho.redzone_lt, bytes_dieAndFreeMem_of_placed hplaced]
    exact hacc.erase harea hplaced hclear
  | moved hop hpos htaken hd =>
    rename_i h₁ h₂ old n gone
    subst hop
    obtain ⟨hold, hclear, hacc⟩ := hinv.taken htaken
    obtain ⟨hnew, hnewClear⟩ := hg.resolve_left hpos
    have hmod : n % 2 ^ 62 = n := hnew.size_lt ho.redzone_pos
    have hmem : ∀ c ∈ old :: h₁.mallocList, c ∈ h.chunks := fun c hc =>
      mem_append_left _ (htaken.mallocList.mem_iff.mp hc)
    have hapart : ∀ c ∈ old :: h₁.mallocList,
        (⟨p, n, .malloc⟩ : Chunk).block.Clear o.mallocRedzoneSzB c.block :=
      fun c hc => hnewClear _ (mem_map_of_mem (hmem c hc))
    rw [bytes_dieAndFreeMem_of_placed hold, hmod]
    have hmoved : Accessible area (h₂.movedBytes o old.data old.szB p n)
        (old :: ⟨p, n, .malloc⟩ :: h₂.mallocList) := by
      rw [hd.mallocList]
      refine accessible_movedBytes ⟨p, n, .malloc⟩ rfl hold hnew ?_ harea hapart
      rw [hd.bytes]
      exact hacc
    refine hmoved.erase harea hold (forall_mem_cons.mpr ⟨?_, ?_⟩)
    · exact Or.symm (hapart old (mem_cons_self ..))
    · rw [hd.mallocList]
      exact hclear

/-- **A call keeps the invariant.** -/
theorem Change.inv : Inv o area h' := by
  obtain ⟨added, gone, ht⟩ := hc.turnover
  obtain ⟨haddedPlaced, -, -⟩ := ht.added_ok ho hg
  refine ⟨fun mc hmc => ?_, ?_, ht.volume hinv.volume, hc.accessible hinv ho harea hg, ?_⟩
  · have hmem := ht.chunks.mem_iff.mpr (mem_append_right gone hmc)
    rcases mem_append.mp hmem with hmem | hmem
    · exact ⟨(haddedPlaced mc hmem).1, (haddedPlaced mc hmem).2.1⟩
    · exact hinv.placed mc hmem
  · exact (pairwise_append.mp (ht.clear hinv ho hg)).2.1
  · obtain ⟨l, hreleased, hl⟩ := ht.released
    rw [hreleased]
    refine forall_mem_append.mpr ⟨fun e he mc hmc => ?_, hinv.log⟩
    -- What goes was in the queue, and so has another address than what is in `malloc_list`.
    obtain ⟨g, hgone, rfl⟩ := mem_map.mp he
    have hclear := (pairwise_append.mp hinv.clear).2.2 mc (hl hmc) g
      (ht.gone (mem_reverse.mp hgone))
    exact hclear.addr_ne ho.redzone_pos

end

/-- Blocks clear of each other have different addresses. -/
theorem nodup_of_clear {l : List Chunk} (ho : Configured o)
    (hclear : l.Pairwise fun c c' => c.block.Clear o.mallocRedzoneSzB c'.block) :
    (l.map Chunk.data).Nodup := by
  rw [List.Nodup, pairwise_map]
  exact hclear.imp fun h => h.addr_ne ho.redzone_pos

/-- A call of `MC_(realloc)` that fails leaves the old block as it was; one that succeeds copies
what fits. -/
theorem Change.realloc {pOld n a : ℕ} (hc : Change o h (.realloc pOld n a) p h')
    (hinv : Inv o area h) (ho : Configured o)
    (hg : Granted o area (h.chunks.map Chunk.block) (.realloc pOld n a)) {old : Chunk}
    (hold : old ∈ h.mallocList) (hdata : old.data = pOld) :
    (p = 0 → old ∈ h'.mallocList ∧ h'.bytes = h.bytes)
      ∧ (p ≠ 0 → ∃ new ∈ h'.mallocList, new.data = p ∧ new.szB = n
        ∧ ∀ i < min old.szB n, h'.bytes (p + i) = h.bytes (pOld + i)) := by
  generalize hop : HeapOp.realloc pOld n a = op at hc
  cases hc with
  | same hsame => exact ⟨fun _ => ⟨hsame.mallocList.mem_iff.mpr hold, hsame.bytes⟩, nofun⟩
  | alloc _ _ _ _ _ hno | free _ hno => exact absurd hop.symm (hno _ _ _)
  | moved hop' hpos htaken hd =>
    rename_i h₁ h₂ old' n' gone
    obtain ⟨rfl, rfl, rfl⟩ : pOld = old'.data ∧ n = n' ∧ a = p := by
      simpa using hop.trans hop'
    refine ⟨fun h0 => absurd h0 hpos, fun _ => ?_⟩
    obtain ⟨hplaced, hclear, -⟩ := hinv.taken htaken
    obtain ⟨hnew, hnewClear⟩ := hg.resolve_left hpos
    have hmem : old' ∈ h.mallocList := htaken.mallocList.mem_iff.mp (mem_cons_self ..)
    obtain rfl : old = old' :=
      inj_on_of_nodup_map (nodup_of_clear ho (pairwise_append.mp hinv.clear).1) hold hmem
        hdata
    have hmod : n % 2 ^ 62 = n := hnew.size_lt ho.redzone_pos
    have hapart := hnewClear _ (mem_map_of_mem (mem_append_left _ hmem))
    refine ⟨⟨a, n % 2 ^ 62, .malloc⟩, mem_cons_self .., rfl, hmod, fun i hi => ?_⟩
    have hlower : o.mallocRedzoneSzB ≤ a := hnew.lower
    have hupper : a + n + o.mallocRedzoneSzB ≤ 2 ^ 62 := hnew.upper
    obtain ⟨hlower', hupper'⟩ := hplaced.bounds
    have hcl : a + n + 2 * o.mallocRedzoneSzB ≤ old.data
        ∨ old.data + old.szB + 2 * o.mallocRedzoneSzB ≤ a := hapart
    have hmoved := movedBytes_apply (h := h₂) ⟨a, n, .malloc⟩ rfl hplaced hnew hapart
      (x := a + i) (by omega)
    rw [if_pos (show a ≤ a + i ∧ a + i < a + n by omega),
      if_pos (show a + i < a + old.szB by omega), Nat.add_sub_cancel_left, hd.bytes] at hmoved
    have hbytes : h₁.bytes = h.bytes := htaken.bytes
    rw [bytes_dieAndFreeMem_of_placed hplaced,
      makeMemNoaccess_apply (by omega) (by omega), if_neg (by omega)]
    exact hmoved.trans (by rw [hbytes])

end

/-! ## The ledger -/

section Ledger

variable {o : Options} {area : Set ℕ} {held rest : List Block} {w : World} {op : HeapOp}

/-- A block on the ledger can be given back. -/
theorem cliFree_spec {b : Block} (hperm : held.Perm (b :: rest))
    (hnodup : (held.map Block.addr).Nodup) :
    ∃ held', cliFree held b.addr = .ok held' ∧ held'.Perm rest := by
  have hmem : b ∈ held := hperm.mem_iff.mpr (mem_cons_self ..)
  have hany : held.any (fun c => c.addr = b.addr) = true :=
    any_eq_true.mpr ⟨b, hmem, by simp⟩
  obtain ⟨c, l₁, l₂, -, hc, rfl, herase⟩ :=
    exists_of_eraseP (p := fun c => decide (c.addr = b.addr)) hmem (by simp)
  obtain rfl : c = b :=
    inj_on_of_nodup_map hnodup (by simp) hmem (by simpa using hc)
  refine ⟨l₁ ++ l₂, ?_, ?_⟩
  · rw [cliFree, if_pos hany, herase]
  · exact (perm_middle.symm.trans hperm).cons_inv

/-- **Blocks on the ledger are given back one after the other.** -/
theorem cliFrees_spec (l : List Chunk) {gone : List Chunk}
    (hperm : held.Perm (gone.map Chunk.block ++ rest)) (hnodup : (held.map Block.addr).Nodup) :
    ∃ held', cliFrees (logOf l gone) held = .ok held' ∧ held'.Perm rest := by
  induction gone using List.reverseRecOn generalizing rest with
  | nil => exact ⟨held, rfl, hperm⟩
  | append_singleton gone mc ih =>
    rw [map_append, append_assoc, map_singleton, singleton_append] at hperm
    obtain ⟨held₁, hok₁, hperm₁⟩ := ih hperm
    have hnodup₁ : (held₁.map Block.addr).Nodup := by
      have hall := (hperm.map Block.addr).nodup_iff.mp hnodup
      rw [map_append] at hall
      exact (hperm₁.map Block.addr).nodup_iff.mpr hall.of_append_right
    obtain ⟨held', hok, hperm'⟩ := cliFree_spec hperm₁ hnodup₁
    refine ⟨held', ?_, hperm'⟩
    rw [logOf_append]
    exact (congrArg (· >>= fun held => cliFree held mc.data) hok₁).trans hok

/-- The ledger has the chunks of the tables. -/
structure Agrees (o : Options) (area : Set ℕ) (w : World) : Prop where
  inv : Inv o area w.heap
  ledger : w.held.Perm (w.heap.chunks.map Chunk.block)

theorem Granted.congr {held' : List Block} (hg : Granted o area held op)
    (hperm : held.Perm held') : Granted o area held' op :=
  hg.imp_right fun hp => ⟨hp.1, fun b hb => hp.2 b (hperm.mem_iff.mpr hb)⟩

/-- **A call returns and keeps the agreement.** -/
theorem World.step_agrees (hw : Agrees o area w) (ho : Configured o)
    (harea : ∀ x ∈ area, x < 2 ^ 64) (hg : Granted o area w.held op) :
    ∃ p w', w.step o op = .ok (p, w') ∧ Agrees o area w' ∧ Change o w.heap op p w'.heap := by
  have hg' := hg.congr hw.ledger
  obtain ⟨p, h', hok, hc⟩ := step_change hw.inv.queueOk ho.freelistVol_nonneg op
  have hinv' := hc.inv hw.inv ho harea hg'
  obtain ⟨added, gone, ht⟩ := hc.turnover
  obtain ⟨-, -, haddedBlock⟩ := ht.added_ok ho hg'
  obtain ⟨l, hreleased, -⟩ := ht.released
  have htake : h'.released.take (h'.released.length - w.heap.released.length) = logOf l gone := by
    rw [hreleased, length_append, Nat.add_sub_cancel, take_left']
    rfl
  -- The block returned is put on the ledger before the old ones go.
  have hperm : (if p = 0 then w.held else ⟨p, op.size⟩ :: w.held).Perm
      (gone.map block ++ h'.chunks.map block) := by
    have hcons : (if p = 0 then w.held else ⟨p, op.size⟩ :: w.held)
        = added.map block ++ w.held := by
      rw [haddedBlock]
      split_ifs <;> rfl
    rw [hcons, ← map_append]
    refine (hw.ledger.append_left _).trans ?_
    rw [← map_append]
    exact ht.chunks.map _
  have hnodup : ((if p = 0 then w.held else ⟨p, op.size⟩ :: w.held).map Block.addr).Nodup := by
    refine ((hperm.map Block.addr).nodup_iff).mpr ?_
    rw [← map_append, map_map]
    exact nodup_of_clear ho (ht.clear hw.inv ho hg')
  obtain ⟨held', hfrees, hledger⟩ := cliFrees_spec l hperm hnodup
  refine ⟨p, ⟨h', held'⟩, ?_, ⟨hinv', hledger⟩, hc⟩
  rw [World.step, hok]
  simp only [ok_bind, htake, hfrees, pure_eq_ok]

/-- The wrappers before the first call. -/
def World.init (bytes : ByteMap) : World where
  heap :=
    { mallocList := [], freedBig := [], freedSmall := [], freeQueueVolume := 0
      freeQueueLength := 0, bytes := bytes, reports := [], released := [] }
  held := []

theorem World.init_agrees {bytes : ByteMap} (hfresh : ∀ x ∈ area, bytes x = .noaccess) :
    Agrees o area (World.init bytes) where
  inv :=
    { placed := nofun
      clear := .nil
      volume := rfl
      accessible := fun x hx => by simp [World.init, hfresh x hx]
      log := nofun }
  ledger := .refl _

/-- **Blocks, quarantine and addressability agree.**  Let `VG_(cli_malloc)` return blocks that are
clear of those held, and the heap area be inaccessible at first.  Then every run of calls returns:
each block that is given back was held and not in `malloc_list`.  Afterwards the accessible bytes
of the area are the payloads of the blocks in `malloc_list`, the blocks held are those of
`malloc_list` and the two freed lists, each once, and `MC_(realloc)` keeps the bytes that fit, or
the old block. -/
theorem heap_agrees (ho : Configured o) (harea : ∀ x ∈ area, x < 2 ^ 64) (bytes : ByteMap)
    (hfresh : ∀ x ∈ area, bytes x = .noaccess) (ops : List HeapOp)
    (hops : Refinement.Meets (World.step o) (fun w op => Granted o area w.held op)
      (World.init bytes) ops) :
    ∃ ps w, Refinement.run (World.step o) (World.init bytes) ops = .ok (ps, w)
      ∧ (∀ x ∈ area, w.heap.bytes x ≠ .noaccess
        ↔ ∃ mc ∈ w.heap.mallocList, mc.data ≤ x ∧ x < mc.data + mc.szB)
      ∧ w.held.Perm ((w.heap.mallocList ++ (w.heap.freedBig ++ w.heap.freedSmall)).map Chunk.block)
      ∧ (w.held.map Block.addr).Nodup
      ∧ (∀ e ∈ w.heap.released, ∀ mc ∈ e.2, mc.data ≠ e.1)
      ∧ ∀ pOld n a, Granted o area w.held (.realloc pOld n a) →
        ∃ p w', w.step o (.realloc pOld n a) = .ok (p, w')
          ∧ ∀ old ∈ w.heap.mallocList, old.data = pOld →
            (p = 0 → old ∈ w'.heap.mallocList ∧ w'.heap.bytes = w.heap.bytes)
            ∧ (p ≠ 0 → ∃ new ∈ w'.heap.mallocList, new.data = p ∧ new.szB = n
              ∧ ∀ i < min old.szB n, w'.heap.bytes (p + i) = w.heap.bytes (pOld + i)) := by
  obtain ⟨ps, w, hrun, hw⟩ := Refinement.invariant_run
    (fun w op hw hg => by
      obtain ⟨p, w', hok, hw', -⟩ := World.step_agrees hw ho harea hg
      exact ⟨p, w', hok, hw'⟩)
    (World.init_agrees (o := o) hfresh) hops
  refine ⟨ps, w, hrun, hw.inv.accessible, hw.ledger, ?_, hw.inv.log, fun pOld n a hg => ?_⟩
  · rw [(hw.ledger.map Block.addr).nodup_iff, map_map]
    exact nodup_of_clear ho hw.inv.clear
  · obtain ⟨p, w', hok, -, hc⟩ := World.step_agrees hw ho harea hg
    exact ⟨p, w', hok, fun old hold hdata =>
      hc.realloc hw.inv ho (hg.congr hw.ledger) hold hdata⟩

/-- A block that is allocated, cannot grow, and is freed. -/
theorem heap_agrees_malloc_realloc_free :
    Configured ⟨20000000, 1000000, true, 16⟩ ∧
      ∃ ps w, Refinement.run (World.step ⟨20000000, 1000000, true, 16⟩)
          (World.init fun _ => .noaccess) [.malloc 40 4112, .realloc 4112 80 0, .free 4112]
          = .ok (ps, w)
        ∧ ∀ x ∈ Set.Ico 4096 8192, w.heap.bytes x ≠ .noaccess
          ↔ ∃ mc ∈ w.heap.mallocList, mc.data ≤ x ∧ x < mc.data + mc.szB := by
  have ho : Configured ⟨20000000, 1000000, true, 16⟩ := ⟨by decide, by decide, by decide⟩
  have hplaced : (⟨4112, 40⟩ : Block).Placed 16 (Set.Ico 4096 8192) :=
    ⟨by decide, by decide, fun x hlo hhi => ⟨hlo, hhi.trans (by decide)⟩⟩
  obtain ⟨ps, w, hrun, hacc, -⟩ := heap_agrees ho
    (fun x (hx : x ∈ Set.Ico 4096 8192) => hx.2.trans (by decide)) (fun _ => .noaccess)
    (fun _ _ => rfl)
    [.malloc 40 4112, .realloc 4112 80 0, .free 4112]
    ⟨.inr ⟨hplaced, nofun⟩, fun _ _ _ => ⟨.inl rfl, fun _ _ _ => ⟨.inl rfl, fun _ _ _ => trivial⟩⟩⟩
  exact ⟨ho, ps, w, hrun, hacc⟩

end Ledger

end Valgrind.Memcheck
