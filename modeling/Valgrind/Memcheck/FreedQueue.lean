import Valgrind.Foundations.Refinement
import Valgrind.Memcheck.MallocWrappers

/-!
# Memcheck/FreedQueue — the queue of freed blocks

A freed block waits in the list of the big blocks or in that of the small ones.  When a block is
created while the queue is over its volume, blocks are given back from the front of the lists, big
ones first, until it no longer is (`releaseIfFull_spec`).

**Accounting** (`freed_queue_accounts`): along every run of frees and creations the queue counts what
is in it, and it is first in, first out for the blocks it can hold.
-/

namespace Valgrind.Memcheck

open List Heap
open Refinement (run run_cons)

/-! ## Volumes and logs -/

/-- The freed blocks. -/
def Heap.freed (h : Heap) : List Chunk := h.freedBig ++ h.freedSmall

/-- The volume of a list of blocks. -/
def volumeOf (l : List Chunk) : ℤ := (l.map fun mc => (mc.szB : ℤ)).sum

/-- The log of blocks given back one after the other, while `malloc_list` does not change. -/
def logOf (mallocList gone : List Chunk) : List (Addr × List Chunk) :=
  gone.reverse.map fun mc => (mc.data, mallocList)

@[simp] theorem volumeOf_nil : volumeOf [] = 0 := rfl

@[simp] theorem volumeOf_cons (mc : Chunk) (l : List Chunk) :
    volumeOf (mc :: l) = mc.szB + volumeOf l := by
  rw [volumeOf, map_cons, sum_cons, volumeOf]

@[simp] theorem volumeOf_append (l l' : List Chunk) :
    volumeOf (l ++ l') = volumeOf l + volumeOf l' := by
  rw [volumeOf, map_append, sum_append, volumeOf, volumeOf]

theorem volumeOf_nonneg (l : List Chunk) : 0 ≤ volumeOf l := by
  induction l with
  | nil => exact le_rfl
  | cons mc l ih =>
    rw [volumeOf_cons]
    omega

theorem volumeOf_perm {l l' : List Chunk} (h : l.Perm l') : volumeOf l = volumeOf l' :=
  (h.map _).sum_eq

theorem logOf_append (mallocList gone gone' : List Chunk) :
    logOf mallocList (gone ++ gone') = logOf mallocList gone' ++ logOf mallocList gone := by
  rw [logOf, reverse_append, map_append, logOf, logOf]

/-- What the wrappers do to the queue. -/
inductive QueueOp where
  /-- `die_and_free_mem`. -/
  | free (mc : Chunk) (rzB : ℕ)
  /-- `create_MC_Chunk`. -/
  | create (p szB : ℕ) (kind : AllocKind)

section Queue

variable {o : Options} {h h' : Heap} {big small : List Chunk} {ops : List QueueOp}

/-! ## Blocks are added -/

theorem enqueue_perm (freed : List Chunk) (mc : Chunk) :
    (Heap.enqueue o freed mc).Perm (mc :: freed) := by
  rw [enqueue]
  split_ifs with hnil
  · rw [hnil]
  · exact .refl _
  · exact perm_append_singleton _ _

theorem freed_dieAndFreeMem (mc : Chunk) (rzB : ℕ) :
    (h.dieAndFreeMem o mc rzB).freed.Perm (mc :: h.freed) := by
  rw [freed, freed]
  simp only [dieAndFreeMem, addToFreedQueue]
  split_ifs
  · exact (enqueue_perm _ _).append_right _
  · exact ((enqueue_perm _ _).append_left _).trans perm_middle

theorem volume_dieAndFreeMem (mc : Chunk) (rzB : ℕ) (hv : h.freeQueueVolume = volumeOf h.freed) :
    (h.dieAndFreeMem o mc rzB).freeQueueVolume = volumeOf (h.dieAndFreeMem o mc rzB).freed := by
  rw [volumeOf_perm (freed_dieAndFreeMem mc rzB), volumeOf_cons, ← hv, add_comm]
  rfl

/-! ## Blocks are given back -/

/-- The counts and the log after some blocks are given back; those of a custom allocator are not
freed. -/
def Heap.drain (h : Heap) (gone : List Chunk) : Heap :=
  { h with
    freeQueueVolume := h.freeQueueVolume - volumeOf gone
    freeQueueLength := h.freeQueueLength - gone.length
    released := logOf h.mallocList (gone.filter (·.allockind ≠ .custom)) ++ h.released }

theorem drain_append (gone gone' : List Chunk) :
    (h.drain gone).drain gone' = h.drain (gone ++ gone') := by
  simp [Heap.drain, filter_append, logOf_append, sub_sub]

/-- The loop gives back the blocks at the front of a list, as long as the queue is over its
volume. -/
theorem releaseLoop_spec (l : List Chunk) (hvolume : volumeOf l ≤ h.freeQueueVolume) :
    ∃ gone rest, l = gone ++ rest ∧ Heap.releaseLoop o l h = .ok (rest, h.drain gone)
      ∧ (rest = [] ∨ (h.drain gone).freeQueueVolume ≤ o.freelistVol)
      ∧ (gone = [] ∨ o.freelistVol < h.freeQueueVolume) := by
  induction l generalizing h with
  | nil => exact ⟨[], [], rfl, by simp [releaseLoop, Heap.drain, logOf], .inl rfl, .inl rfl⟩
  | cons mc l ih =>
    rw [volumeOf_cons] at hvolume
    have hrest := volumeOf_nonneg l
    rw [releaseLoop]
    by_cases hfull : h.freeQueueVolume > o.freelistVol
    · obtain ⟨gone, rest, rfl, hok, hdone, -⟩ :=
        ih (h := h.drain [mc]) (by simp only [Heap.drain, volumeOf_cons, volumeOf_nil]; omega)
      rw [drain_append, singleton_append] at hok hdone
      refine ⟨mc :: gone, rest, rfl, ?_, hdone, .inr hfull⟩
      rw [if_pos hfull, vgAssert_bind (by omega), ← hok]
      by_cases hkind : mc.allockind = .custom <;> simp [Heap.drain, logOf, hkind]
    · rw [if_neg hfull]
      exact ⟨[], mc :: l, rfl, by simp [Heap.drain, logOf],
        .inr (by simpa [Heap.drain] using hfull), .inl rfl⟩

/-- **What a release does**: blocks at the front of the lists are given back, small ones only after
all the big ones, until the queue is within its volume. -/
structure Released (o : Options) (h h' : Heap) (big small : List Chunk) : Prop where
  eq : h' = { h.drain (big ++ small) with freedBig := h'.freedBig, freedSmall := h'.freedSmall }
  freedBig : h.freedBig = big ++ h'.freedBig
  freedSmall : h.freedSmall = small ++ h'.freedSmall
  big_first : small = [] ∨ h'.freedBig = []
  within : h'.freeQueueVolume ≤ o.freelistVol

section

variable (hv : h.freeQueueVolume = volumeOf h.freed) (hvol : 0 ≤ o.freelistVol)
include hv hvol

theorem releaseOldestBlock_spec (hfull : h.freeQueueVolume > o.freelistVol) :
    ∃ h' big small, h.releaseOldestBlock o = .ok h' ∧ Released o h h' big small := by
  rw [freed, volumeOf_append] at hv
  have hsmall := volumeOf_nonneg h.freedSmall
  have hsome : h.freedBig ≠ [] ∨ h.freedSmall ≠ [] := by
    by_contra hnone
    obtain ⟨hb, hs⟩ := not_or.mp hnone
    rw [not_not.mp hb, not_not.mp hs, volumeOf_nil] at hv
    omega
  obtain ⟨big, rest₀, h₀, hloop₀, hdone₀, -⟩ :=
    releaseLoop_spec (o := o) (h := h) h.freedBig (by omega)
  rw [h₀, volumeOf_append] at hv
  have hrest := volumeOf_nonneg rest₀
  obtain ⟨small, rest₁, h₁, hloop₁, hdone₁, hover⟩ :=
    releaseLoop_spec (o := o) (h := h.drain big) h.freedSmall (by simp only [Heap.drain]; omega)
  rw [drain_append] at hloop₁ hdone₁
  refine ⟨{ h.drain (big ++ small) with freedBig := rest₀, freedSmall := rest₁ }, big, small, ?_,
    rfl, h₀, h₁, ?_, ?_⟩
  · rw [releaseOldestBlock, vgAssert_bind hfull, vgAssert_bind hsome, hloop₀, ok_bind]
    dsimp only [Heap.drain] at hloop₁ ⊢
    rw [hloop₁, ok_bind, pure_eq_ok]
  · -- a small block is given back only if the big ones did not suffice
    exact hover.imp_right fun hover => hdone₀.resolve_right (not_le.mpr hover)
  · simp only [Heap.drain, volumeOf_append] at hdone₀ hdone₁ ⊢
    rcases hdone₁ with rfl | hdone₁
    · rw [h₁, append_nil] at hv hsmall
      rcases hdone₀ with rfl | hdone₀
      · rw [volumeOf_nil] at hv
        omega
      · omega
    · exact hdone₁

theorem releaseIfFull_spec :
    ∃ h' big small, h.releaseIfFull o = .ok h' ∧ Released o h h' big small := by
  rw [releaseIfFull]
  split_ifs with hfull
  · exact releaseOldestBlock_spec hv hvol hfull
  · exact ⟨h, [], [], rfl, by simp [Heap.drain, logOf], rfl, rfl, .inl rfl, not_lt.mp hfull⟩

end

/-! ## First in, first out -/

/-- Carry out an operation, and answer the chunk that it creates. -/
def Heap.queueStep (o : Options) (h : Heap) : QueueOp → Except Abort (Option Chunk × Heap)
  | .free mc rzB => .ok (none, h.dieAndFreeMem o mc rzB)
  | .create p szB kind => do
    let (mc, h) ← h.createMCChunk o p szB kind
    return (some mc, h)

/-- The blocks in a list that the queue can hold. -/
def Heap.waiting (o : Options) (h : Heap) (big : Bool) : List Chunk :=
  (if big then h.freedBig else h.freedSmall).filter fun mc => mc.szB < o.freelistVol

/-- The block that an operation adds to those of a list that the queue can hold. -/
def QueueOp.frees (o : Options) (big : Bool) : QueueOp → List Chunk
  | .free mc _ =>
    if decide (o.freelistBigBlocks ≤ mc.szB) = big then [mc].filter fun mc => mc.szB < o.freelistVol
    else []
  | .create .. => []

/-- **The queue counts what is in it**, and what is left in a list of the blocks it can hold are
those freed last, in their order. -/
structure Accounts (o : Options) (ops : List QueueOp) (h : Heap) : Prop where
  volume : h.freeQueueVolume = volumeOf h.freed
  length : h.freeQueueLength = h.freed.length
  fifo : ∀ big, h.waiting o big <:+ ops.flatMap (QueueOp.frees o big)

theorem filter_enqueue (freed : List Chunk) (mc : Chunk) :
    (Heap.enqueue o freed mc).filter (fun mc => mc.szB < o.freelistVol)
      = freed.filter (fun mc => mc.szB < o.freelistVol)
        ++ [mc].filter (fun mc => mc.szB < o.freelistVol) := by
  rw [enqueue]
  split_ifs with hnil hvol
  · rw [hnil, filter_nil, nil_append]
  · simp [not_lt.mpr hvol]
  · rw [filter_append]

theorem Accounts.free (ha : Accounts o ops h) (mc : Chunk) (rzB : ℕ) :
    Accounts o (ops ++ [.free mc rzB]) (h.dieAndFreeMem o mc rzB) := by
  refine ⟨volume_dieAndFreeMem mc rzB ha.volume, ?_, fun big => ?_⟩
  · rw [(freed_dieAndFreeMem mc rzB).length_eq, length_cons, Nat.cast_succ, ← ha.length]
    rfl
  · obtain ⟨gone, hfifo⟩ := ha.fifo big
    refine ⟨gone, ?_⟩
    rw [flatMap_append, ← hfifo, append_assoc, flatMap_singleton]
    by_cases hbig : o.freelistBigBlocks ≤ mc.szB <;> cases big <;>
      simp [waiting, dieAndFreeMem, addToFreedQueue, filter_enqueue, QueueOp.frees,
        hbig]

theorem Accounts.release (ha : Accounts o ops h) (hr : Released o h h' big small) (p szB : ℕ)
    (kind : AllocKind) : Accounts o (ops ++ [.create p szB kind]) h' := by
  have hv := ha.volume
  have hl := ha.length
  rw [freed, hr.freedBig, hr.freedSmall] at hv hl
  refine ⟨?_, ?_, fun side => ?_⟩
  · rw [hr.eq]
    simp only [Heap.drain, freed, volumeOf_append] at hv ⊢
    omega
  · rw [hr.eq]
    simp only [Heap.drain, freed, length_append] at hl ⊢
    omega
  · have hsuffix : h'.waiting o side <:+ h.waiting o side := by
      rw [waiting, waiting, hr.freedBig, hr.freedSmall]
      cases side <;> exact (suffix_append _ _).filter _
    simpa [QueueOp.frees] using hsuffix.trans (ha.fifo side)

section

variable (hvol : 0 ≤ o.freelistVol)
include hvol

theorem Accounts.create (ha : Accounts o ops h) (p szB : ℕ) (kind : AllocKind) :
    ∃ mc h' big small, h.createMCChunk o p szB kind = .ok (mc, h') ∧ Released o h h' big small := by
  obtain ⟨h', big, small, hok, hr⟩ := releaseIfFull_spec ha.volume hvol
  exact ⟨_, h', big, small, by rw [createMCChunk, hok]; rfl, hr⟩

theorem Accounts.run (ha : Accounts o ops h) (ops' : List QueueOp) :
    ∃ rs h', run (Heap.queueStep o) h ops' = .ok (rs, h') ∧ Accounts o (ops ++ ops') h' := by
  induction ops' generalizing ops h with
  | nil => exact ⟨[], h, rfl, by rwa [append_nil]⟩
  | cons op ops' ih =>
    obtain ⟨r, h₁, hstep, ha₁⟩ : ∃ r h₁, h.queueStep o op = .ok (r, h₁)
        ∧ Accounts o (ops ++ [op]) h₁ := by
      cases op with
      | free mc rzB => exact ⟨_, _, rfl, ha.free mc rzB⟩
      | create p szB kind =>
        obtain ⟨mc, h₁, big, small, hok, hr⟩ := ha.create hvol p szB kind
        exact ⟨some mc, h₁, by rw [queueStep, hok]; rfl, ha.release hr p szB kind⟩
    obtain ⟨rs, h', hrun, ha'⟩ := ih ha₁
    exact ⟨r :: rs, h', run_cons hstep hrun, by rwa [append_assoc] at ha'⟩

end

end Queue

end Valgrind.Memcheck
