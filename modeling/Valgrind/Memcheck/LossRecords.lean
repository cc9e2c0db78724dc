import Valgrind.Core.ExeContext
import Valgrind.Core.IterCapacity
import Valgrind.Memcheck.LeakCheck

/-!
# Memcheck/LossRecords — `memcheck/mc_leakcheck.c`: blocks are merged into loss records

`print_results` accounts every block to a loss record with its leak state and an allocation context
that is equal to its own at the leak resolution.  The records are kept in an `OSet`, from one search
to the next, under a comparison of keys that asks for equal contexts first and falls back on the
order of pointers.

That comparison is an order iff contexts that are equal at the resolution lie together in memory
(`Contiguous`).  Then blocks are grouped exactly by their keys; if not, some search tells blocks
with equal keys apart: `grouped_iff`. -/

namespace Valgrind.Memcheck

open Finset Nat List OSet Std.TransCmp Std.OrientedCmp
open Refinement (run)

/-! ## Keys -/

/-- The number of a state in the enumeration. -/
def Reachedness.toNat : Reachedness → ℕ
  | .reachable => 0
  | .possible => 1
  | .indirectLeak => 2
  | .unreached => 3

/-- `LossRecordKey`. -/
structure LossRecordKey (γ : Type) where
  state : Reachedness
  allocatedAt : γ
deriving DecidableEq

variable {γ : Type} (E : ExeContexts γ) (res : VgRes)

/-- `cmp_LossRecordKey_LossRecord`.  It does not panic: a context is equal to itself. -/
def cmpLossRecordKey (a b : LossRecordKey γ) : ℤ :=
  if a.state.toNat < b.state.toNat then -1
  else if a.state.toNat > b.state.toNat then 1
  else if E.eqExeContext res a.allocatedAt b.allocatedAt then 0
  else if E.addr a.allocatedAt < E.addr b.allocatedAt then -1
  else 1

/-! ## Records -/

/-- What is counted in a `LossRecord`. -/
structure LossRecord where
  szB : ℕ
  indirectSzB : ℕ
  numBlocks : ℕ
  oldSzB : ℕ
  oldIndirectSzB : ℕ
  oldNumBlocks : ℕ
deriving DecidableEq, Repr

/-- A pointer to a `LossRecord`, and the key found there, which never changes. -/
structure LrPtr (γ : Type) where
  ptr : ℕ
  key : LossRecordKey γ
deriving DecidableEq

/-- What the `lr_table` is created with. -/
def lrSpec : KeySpec (LossRecordKey γ) (LrPtr γ) where
  keyOf := LrPtr.key
  wordOf := fun _ => 0
  cmp := some fun k lr => cmpLossRecordKey E res k lr.key

/-- `lr_table` and the records in it; `nextPtr` is what the allocator has not given out so far. -/
structure LossRecords (γ : Type) where
  table : OSet (LossRecordKey γ) (LrPtr γ)
  content : ℕ → LossRecord
  nextPtr : ℕ

/-- A block as `print_results` finds it: its key, its size, and the size it leads. -/
structure LostBlock (γ : Type) where
  key : LossRecordKey γ
  szB : ℕ
  indirectSzB : ℕ

/-- What a block adds to the indirect size of its record. -/
def LostBlock.indirect (b : LostBlock γ) : ℕ :=
  if b.key.state = .unreached then b.indirectSzB else 0

namespace LossRecords

/-- No search has been made; the table is created by the first. -/
def init : LossRecords γ := ⟨OSet.create (lrSpec E res), fun _ => ⟨0, 0, 0, 0, 0, 0⟩, 0⟩

/-- `get_lr_array_from_lr_table`. -/
def getLrArray (t : OSet (LossRecordKey γ) (LrPtr γ)) :
    Except Abort (List (LrPtr γ) × OSet (LossRecordKey γ) (LrPtr γ)) := do
  let n := t.size
  let (lrs, t) ← t.iterate
  if n < lrs.length then .error .wildAccess
  else
    vgAssert (lrs.length = n)
    return (lrs, t)

variable [DecidableEq γ]

/-- A record of the previous search is removed if it has no blocks; else its counts become the old
ones. -/
def resetRecord (st : LossRecords γ) (lr : LrPtr γ) : Except Abort (LossRecords γ) :=
  let r := st.content lr.ptr
  if r.numBlocks = 0 then do
    let (_, table) ← st.table.remove lr.key
    return { st with table }
  else return { st with
    content := Function.update st.content lr.ptr ⟨0, 0, 0, r.szB, r.indirectSzB, r.numBlocks⟩ }

/-- All records of the previous search. -/
def resetRecords (st : LossRecords γ) : List (LrPtr γ) → Except Abort (LossRecords γ)
  | [] => return st
  | lr :: lrs => do
    let st ← st.resetRecord lr
    st.resetRecords lrs

/-- A block is accounted to the record with its key, or to a new one; the pointer to it. -/
def account (st : LossRecords γ) (b : LostBlock γ) : Except Abort (ℕ × LossRecords γ) :=
  match st.table.lookup b.key with
  | some lr =>
    let r := st.content lr.ptr
    return (lr.ptr, { st with
      content := Function.update st.content lr.ptr { r with
        szB := (r.szB + b.szB) % 2 ^ 64
        indirectSzB := (r.indirectSzB + b.indirect) % 2 ^ 64
        numBlocks := (r.numBlocks + 1) % 2 ^ 32 } })
  | none => do
    let table ← st.table.insert ⟨st.nextPtr, b.key⟩
    return (st.nextPtr, {
      table
      content := Function.update st.content st.nextPtr ⟨b.szB, b.indirect, 1, 0, 0, 0⟩
      nextPtr := st.nextPtr + 1 })

/-- All blocks, in order. -/
def accountAll (st : LossRecords γ) :
    List (LostBlock γ) → Except Abort (List ℕ × LossRecords γ)
  | [] => return ([], st)
  | b :: bs => do
    let (p, st) ← st.account b
    let (ps, st) ← st.accountAll bs
    return (p :: ps, st)

/-- `print_results`, up to the sorting of the records: the record each block is accounted to. -/
def printResults (st : LossRecords γ) (blocks : List (LostBlock γ)) :
    Except Abort (List ℕ × LossRecords γ) := do
  let (lrs, table) ← getLrArray st.table
  let st ← resetRecords { st with table } lrs
  let (ps, st) ← st.accountAll blocks
  let (_, table) ← getLrArray st.table
  return (ps, { st with table })

end LossRecords

/-! ## When the comparison is an order -/

/-- **Contexts that are equal at the resolution lie together**: there is no other between them. -/
def Contiguous : Prop := ∀ a b c, E.addr a < E.addr b → E.addr b < E.addr c →
  E.eqExeContext res a c = true → E.eqExeContext res a b = true

/-- Contexts by what is seen of them, then by pointers. -/
def ctxOrd (a b : γ) : Ordering :=
  if E.seen res a = E.seen res b then .eq else compare (E.addr a) (E.addr b)

/-- Keys by their states, then by their contexts. -/
def lrOrd : LossRecordKey γ → LossRecordKey γ → Ordering :=
  compareLex (compareOn fun k => k.state.toNat) fun k k' =>
    ctxOrd E res k.allocatedAt k'.allocatedAt

theorem compare_cmpLossRecordKey (a b : LossRecordKey γ) :
    compare (cmpLossRecordKey E res a b) 0 = lrOrd E res a b := by
  simp only [cmpLossRecordKey, lrOrd, compareLex, compareOn, ctxOrd]
  rcases lt_trichotomy a.state.toNat b.state.toNat with h | h | h
  · rw [if_pos h, compare_lt_iff_lt.mpr h]
    rfl
  · rw [if_neg h.not_lt, if_neg h.symm.not_lt, compare_eq_iff_eq.mpr h, Ordering.then]
    simp only [E.eqExeContext_iff]
    split_ifs with hseen hlt
    · rfl
    · rw [compare_lt_iff_lt.mpr hlt]
      rfl
    · have hne : E.addr a.allocatedAt ≠ E.addr b.allocatedAt := fun heq =>
        hseen (E.addr_injective heq ▸ rfl)
      rw [compare_gt_iff_gt.mpr (lt_of_le_of_ne (not_lt.mp hlt) hne.symm)]
      rfl
  · rw [if_neg h.not_gt, if_pos h, compare_gt_iff_gt.mpr h]
    rfl

variable {E res}

/-- Not after: seen the same, or before. -/
theorem isLE_ctxOrd {a b : γ} :
    (ctxOrd E res a b).isLE = true ↔ E.seen res a = E.seen res b ∨ E.addr a < E.addr b := by
  rw [ctxOrd]
  split_ifs with hseen
  · exact iff_of_true rfl (.inl hseen)
  · have hne : E.addr a ≠ E.addr b := fun heq => hseen (E.addr_injective heq ▸ rfl)
    rw [or_iff_right hseen, Nat.isLE_compare]
    exact ⟨fun h => lt_of_le_of_ne h hne, le_of_lt⟩

/-- **Where equal contexts lie together, contexts are ordered.** -/
theorem Contiguous.transCmp (h : Contiguous E res) : Std.TransCmp (ctxOrd E res) where
  eq_swap {a b} := by
    simp only [ctxOrd, eq_comm (a := E.seen res b)]
    split_ifs
    · rfl
    · exact eq_swap
  isLE_trans {a b c} hab hbc := by
    simp only [Contiguous, E.eqExeContext_iff] at h
    rw [isLE_ctxOrd] at hab hbc ⊢
    by_contra hac
    obtain ⟨hseen, haddr⟩ := not_or.mp hac
    have hca : E.addr c < E.addr a := by
      refine lt_of_le_of_ne (not_lt.mp haddr) fun heq => hseen ?_
      rw [E.addr_injective heq]
    rcases hab with hab | hab
    · rcases hbc with hbc | hbc
      · exact hseen (hab.trans hbc)
      -- `c` lies between `b` and `a`
      · exact hseen (hab.trans (h b c a hbc hca hab.symm))
    · rcases hbc with hbc | hbc
      -- `a` lies between `c` and `b`
      · exact hseen (h c a b hca hab hbc.symm).symm
      · exact absurd (hab.trans hbc) (not_lt.mpr hca.le)

theorem Contiguous.orders (h : Contiguous E res) : (lrSpec E res).Orders (lrOrd E res) := by
  have hord := h.transCmp
  have hctx : Std.TransCmp fun k k' : LossRecordKey γ =>
      ctxOrd E res k.allocatedAt k'.allocatedAt :=
    { eq_swap := hord.eq_swap, isLE_trans := hord.isLE_trans }
  exact .chosen rfl (inferInstanceAs (Std.TransCmp (compareLex _ _)))
    fun k lr => compare_cmpLossRecordKey E res k lr.key

/-- Keys compare equal iff their states are the same and their contexts equal. -/
theorem lrOrd_eq_iff {a b : LossRecordKey γ} : lrOrd E res a b = .eq
    ↔ a.state = b.state ∧ E.eqExeContext res a.allocatedAt b.allocatedAt = true := by
  have hstate : a.state.toNat = b.state.toNat ↔ a.state = b.state := by
    cases a.state <;> cases b.state <;> decide
  have hctx : ctxOrd E res a.allocatedAt b.allocatedAt = .eq
      ↔ E.seen res a.allocatedAt = E.seen res b.allocatedAt := by
    rw [ctxOrd]
    split_ifs with hseen
    · exact iff_of_true rfl hseen
    · refine iff_of_false (fun heq => hseen ?_) hseen
      rw [E.addr_injective (compare_eq_iff_eq.mp heq)]
  simp only [lrOrd, compareLex, compareOn, Ordering.then_eq_eq, compare_eq_iff_eq, hstate, hctx,
    E.eqExeContext_iff]

/-! ## One search -/

/-- Blocks have the same record iff they have the same state and equal contexts. -/
def Grouped (E : ExeContexts γ) (res : VgRes) (blocks : List (LostBlock γ)) (ps : List ℕ) : Prop :=
  blocks.length = ps.length ∧ ∀ b p c q, (b, p) ∈ blocks.zip ps → (c, q) ∈ blocks.zip ps →
    (p = q ↔ b.key.state = c.key.state
      ∧ E.eqExeContext res b.key.allocatedAt c.key.allocatedAt = true)

/-- The record of a block, among those of a table. -/
def RecordOf (E : ExeContexts γ) (res : VgRes) (s : Finset (LrPtr γ)) (b : LostBlock γ) (p : ℕ) :
    Prop := ∃ lr ∈ s, lr.ptr = p ∧ lrOrd E res b.key lr.key = .eq

/-- How many blocks the searches find. -/
def total (searches : List (List (LostBlock γ))) : ℕ := (searches.map List.length).sum

namespace LossRecords

variable [DecidableEq γ] {st : LossRecords γ} {s : Finset (LrPtr γ)}

/-- The table holds the records `s`, which have their own pointers. -/
structure Holds (E : ExeContexts γ) (res : VgRes) (st : LossRecords γ) (s : Finset (LrPtr γ)) :
    Prop where
  represents : OSet.Represents (lrSpec E res) (lrOrd E res) st.table s
  ptr_lt : ∀ lr ∈ s, lr.ptr < st.nextPtr
  ptr_inj : ∀ lr ∈ s, ∀ lr' ∈ s, lr.ptr = lr'.ptr → lr = lr'

theorem holds_init : Holds E res (init E res) ∅ :=
  ⟨represents_create _ _, nofun, nofun⟩

/-- Fewer records, and any counts. -/
theorem Holds.mono (h : Holds E res st s) {st' : LossRecords γ} {s' : Finset (LrPtr γ)}
    (hrep : OSet.Represents (lrSpec E res) (lrOrd E res) st'.table s') (hsub : s' ⊆ s)
    (hnext : st'.nextPtr = st.nextPtr) : Holds E res st' s' :=
  ⟨hrep, fun lr hlr => hnext ▸ h.ptr_lt lr (hsub hlr),
    fun lr hlr lr' hlr' => h.ptr_inj lr (hsub hlr) lr' (hsub hlr')⟩

section

variable (hE : Contiguous E res) (h : Holds E res st s)
include hE h

/-- A record is reset, or removed. -/
theorem resetRecord_spec (lr : LrPtr γ) :
    ∃ st' s', st.resetRecord lr = .ok st' ∧ Holds E res st' s' ∧ s' ⊆ s := by
  unfold resetRecord
  dsimp only
  split_ifs
  · obtain ⟨t', hrem, hrep⟩ := remove_spec hE.orders h.represents lr.key
    rw [hrem]
    exact ⟨_, _, rfl, h.mono hrep (filter_subset _ _) rfl, filter_subset _ _⟩
  · exact ⟨_, s, rfl, h.mono h.represents subset_rfl rfl, subset_rfl⟩

theorem resetRecords_spec (lrs : List (LrPtr γ)) :
    ∃ st' s', st.resetRecords lrs = .ok st' ∧ Holds E res st' s' ∧ s' ⊆ s := by
  induction lrs generalizing st s with
  | nil => exact ⟨st, s, rfl, h, subset_rfl⟩
  | cons lr lrs ih =>
    obtain ⟨st₁, s₁, hreset, h₁, hsub₁⟩ := resetRecord_spec hE h lr
    obtain ⟨st₂, s₂, hrest, h₂, hsub₂⟩ := ih h₁
    exact ⟨st₂, s₂, by rw [resetRecords, hreset, ok_bind, hrest], h₂, hsub₂.trans hsub₁⟩

/-- **A block is accounted to the record with its key.** -/
theorem account_spec (b : LostBlock γ) :
    ∃ lr st' s', st.account b = .ok (lr.ptr, st') ∧ Holds E res st' s' ∧ s ⊆ s'
      ∧ s'.card ≤ s.card + 1 ∧ lr ∈ s' ∧ lrOrd E res b.key lr.key = .eq := by
  have htrans := hE.orders.transCmp
  have hlook := fun e => lookup_eq_some_iff hE.orders h.represents (k := b.key) (e := e)
  unfold account
  cases hfound : st.table.lookup b.key with
  | some lr =>
    obtain ⟨hmem, heq⟩ := (hlook lr).mp hfound
    exact ⟨lr, _, s, rfl, h.mono h.represents subset_rfl rfl, subset_rfl, le_succ _, hmem, heq⟩
  | none =>
    have habs : ∀ lr ∈ s, lrOrd E res b.key lr.key ≠ .eq := fun lr hlr heq =>
      nomatch hfound.symm.trans ((hlook lr).mpr ⟨hlr, heq⟩)
    obtain ⟨t', hins, hrep⟩ :=
      insert_spec (e := LrPtr.mk st.nextPtr b.key) hE.orders h.represents habs
    refine ⟨⟨st.nextPtr, b.key⟩, _, insert ⟨st.nextPtr, b.key⟩ s, by rw [hins]; rfl,
      ⟨hrep, ?_, ?_⟩, subset_insert _ _, card_insert_le _ _,
      mem_insert_self _ _, Std.ReflCmp.compare_self⟩
    · refine fun lr hlr => ?_
      rcases mem_insert.mp hlr with rfl | hlr
      · exact lt_succ_self _
      · exact (h.ptr_lt lr hlr).trans (lt_succ_self _)
    · intro lr hlr lr' hlr' hptr
      rcases mem_insert.mp hlr with rfl | hlr
      · rcases mem_insert.mp hlr' with rfl | hlr'
        · rfl
        · exact absurd hptr (h.ptr_lt lr' hlr').ne'
      · rcases mem_insert.mp hlr' with rfl | hlr'
        · exact absurd hptr (h.ptr_lt lr hlr).ne
        · exact h.ptr_inj lr hlr lr' hlr' hptr

theorem accountAll_spec
    (blocks : List (LostBlock γ)) :
    ∃ ps st' s', st.accountAll blocks = .ok (ps, st') ∧ Holds E res st' s' ∧ s ⊆ s'
      ∧ s'.card ≤ s.card + blocks.length ∧ List.Forall₂ (RecordOf E res s') blocks ps := by
  induction blocks generalizing st s with
  | nil => exact ⟨[], st, s, rfl, h, subset_rfl, le_rfl, .nil⟩
  | cons b bs ih =>
    obtain ⟨lr, st₁, s₁, hacc, h₁, hsub₁, hcard₁, hmem, heq⟩ := account_spec hE h b
    obtain ⟨ps, st₂, s₂, hrest, h₂, hsub₂, hcard₂, hall⟩ := ih h₁
    refine ⟨lr.ptr :: ps, st₂, s₂, ?_, h₂, hsub₁.trans hsub₂, ?_, .cons ?_ hall⟩
    · simp only [accountAll, hacc, hrest, ok_bind, pure_eq_ok]
    · rw [length_cons]
      omega
    · exact ⟨lr, hsub₂ hmem, rfl, heq⟩

/-- Blocks whose records are found by their keys are grouped by them. -/
theorem Holds.grouped
    {blocks : List (LostBlock γ)} {ps : List ℕ}
    (hall : List.Forall₂ (RecordOf E res s) blocks ps) : Grouped E res blocks ps := by
  have htrans := hE.orders.transCmp
  obtain ⟨hlen, hmem⟩ := forall₂_iff_zip.mp hall
  refine ⟨hlen, fun b p c q hb hc => ?_⟩
  obtain ⟨lr, hlr, rfl, hkey⟩ := hmem hb
  obtain ⟨lr', hlr', rfl, hkey'⟩ := hmem hc
  rw [← lrOrd_eq_iff]
  constructor
  · intro hptr
    rw [h.ptr_inj lr hlr lr' hlr' hptr] at hkey
    rw [congr_left hkey]
    exact eq_symm hkey'
  · intro heq
    have hsame : lrOrd E res lr.key lr'.key = .eq := by
      rw [← congr_left hkey, congr_left heq, hkey']
    rw [← h.represents.toFinset_eq, mem_toFinset] at hlr hlr'
    rw [h.represents.ordered.eq_of_eq hlr hlr' hsame]

/-- The array of the records can be made, unless there are too many for the iterator. -/
theorem getLrArray_spec :
    (∃ e, getLrArray st.table = .error e ∧ iterLimit ≤ s.card)
      ∨ ∃ lrs t', getLrArray st.table = .ok (lrs, t')
        ∧ OSet.Represents (lrSpec E res) (lrOrd E res) t' s := by
  have htrans := hE.orders.transCmp
  have hrep := h.represents
  have hlen : st.table.root.toList.length = s.card := by
    rw [← hrep.toFinset_eq, toFinset_card_of_nodup hrep.ordered.nodup]
  unfold getLrArray
  by_cases hdepth : st.table.root.leftDepth ≤ stackMax
  · obtain ⟨t', hiter⟩ := (iterate_spec _).1 hdepth
    have hkeep := iterate_keeps hiter
    have hrep' : OSet.Represents (lrSpec E res) (lrOrd E res) t' s := by
      rw [hkeep]
      exact { hrep with }
    rw [hiter, ok_bind]
    simp only [OSet.size, hrep.nElems_eq, hlen]
    split_ifs with hwrap
    · refine .inl ⟨_, rfl, ?_⟩
      have : 2 ^ 32 ≤ s.card := by
        by_contra hlt
        rw [mod_eq_of_lt (not_le.mp hlt)] at hwrap
        exact lt_irrefl _ hwrap
      exact (show iterLimit ≤ 2 ^ 32 by decide).trans this
    · refine .inr ⟨st.table.root.toList, t', ?_, hrep'⟩
      have heq : s.card = s.card % 2 ^ 32 := le_antisymm (not_lt.mp hwrap) (mod_le _ _)
      rw [vgAssert_bind heq]
      rfl
  · refine .inl ⟨_, by rw [(iterate_spec _).2 (not_le.mp hdepth), error_bind], ?_⟩
    by_contra hlt
    exact hdepth (leftDepth_le_of_length_lt hrep.balanced (hlen.trans_lt (not_le.mp hlt)))

/-- **One search** groups its blocks, unless there are too many records for the iterator. -/
theorem printResults_spec
    (blocks : List (LostBlock γ)) :
    (∃ e, st.printResults blocks = .error e ∧ iterLimit ≤ s.card + blocks.length)
      ∨ ∃ ps st' s', st.printResults blocks = .ok (ps, st') ∧ Holds E res st' s'
        ∧ s'.card ≤ s.card + blocks.length ∧ Grouped E res blocks ps := by
  unfold printResults
  rcases getLrArray_spec hE h with ⟨e, herr, hlim⟩ | ⟨lrs, t, harr, hrep⟩
  · exact .inl ⟨e, by rw [herr, error_bind], by omega⟩
  rw [harr, ok_bind]
  have h₀ : Holds E res { st with table := t } s := h.mono hrep subset_rfl rfl
  obtain ⟨st₁, s₁, hreset, h₁, hsub₁⟩ := resetRecords_spec hE h₀ lrs
  obtain ⟨ps, st₂, s₂, hacc, h₂, -, hcard₂, hall⟩ := accountAll_spec hE h₁ blocks
  have hcard₁ := card_le_card hsub₁
  dsimp only
  rw [hreset, ok_bind, hacc, ok_bind]
  dsimp only
  rcases getLrArray_spec hE h₂ with ⟨e, herr, hlim⟩ | ⟨lrs', t', harr', hrep'⟩
  · exact .inl ⟨e, by rw [herr, error_bind], by omega⟩
  · rw [harr', ok_bind]
    exact .inr ⟨ps, _, s₂, rfl, h₂.mono hrep' subset_rfl rfl, by omega, h₂.grouped hE hall⟩

end

/-! ## Searches, one after the other -/

/-- Where equal contexts lie together, every search groups its blocks. -/
theorem run_grouped (hE : Contiguous E res) (h : Holds E res st s)
    (searches : List (List (LostBlock γ))) :
    (∃ e, run printResults st searches = .error e ∧ iterLimit ≤ s.card + total searches)
      ∨ ∃ rs st', run printResults st searches = .ok (rs, st')
        ∧ List.Forall₂ (Grouped E res) searches rs := by
  induction searches generalizing st s with
  | nil => exact .inr ⟨[], st, rfl, .nil⟩
  | cons blocks searches ih =>
    have htotal : total (blocks :: searches) = blocks.length + total searches := by
      rw [total, List.map_cons, List.sum_cons, total]
    rcases printResults_spec hE h blocks with ⟨e, herr, hlim⟩ | ⟨ps, st₁, s₁, hok, h₁, hcard, hg⟩
    · exact .inl ⟨e, by rw [run, herr, error_bind], by omega⟩
    · rcases ih h₁ with ⟨e, herr, hlim⟩ | ⟨rs, st₂, hrest, hall⟩
      · refine .inl ⟨e, ?_, by omega⟩
        rw [run, hok, ok_bind]
        dsimp only
        rw [herr, error_bind]
      · exact .inr ⟨ps :: rs, st₂, Refinement.run_cons hok hrest, .cons hg hall⟩

/-- Two contexts that are equal, and one that is not between them: if its block comes first, the
others get records of their own. -/
theorem accountAll_between {a b c : γ} (hab : E.addr a < E.addr b) (hbc : E.addr b < E.addr c)
    (hac : E.eqExeContext res a c = true) (hne : E.eqExeContext res a b ≠ true) :
    ∃ st', (init E res).accountAll [⟨⟨.unreached, b⟩, 8, 0⟩, ⟨⟨.unreached, a⟩, 8, 0⟩,
      ⟨⟨.unreached, c⟩, 8, 0⟩] = .ok ([0, 1, 2], st') := by
  have hcb : E.eqExeContext res c b ≠ true := by
    rw [Ne, E.eqExeContext_iff] at hne ⊢
    exact fun h => hne (((E.eqExeContext_iff ..).mp hac).trans h)
  have hlt : compare (cmpLossRecordKey E res ⟨.unreached, a⟩ ⟨.unreached, b⟩) 0 = .lt := by
    rw [cmpLossRecordKey, if_neg (lt_irrefl _), if_neg (lt_irrefl _), if_neg hne, if_pos hab]
    rfl
  have hgt : compare (cmpLossRecordKey E res ⟨.unreached, c⟩ ⟨.unreached, b⟩) 0 = .gt := by
    rw [cmpLossRecordKey, if_neg (lt_irrefl _), if_neg (lt_irrefl _), if_neg hcb,
      if_neg hbc.not_gt]
    rfl
  simp [accountAll, account, init, OSet.create, OSet.lookup, OSet.insert, AvlCode.avlFind,
    AvlCode.avlInsert, KeySpec.code, KeySpec.cmpKeyNode, lrSpec, AvlTree.leaf, AvlTree.isNil, hlt,
    hgt]

/-- **Blocks are grouped by their keys iff equal contexts lie together.**  For given contexts and a
resolution: every sequence of searches that finds fewer blocks than the iterator can cope with
returns, and every sequence that returns has accounted two blocks of a search to the same record iff
their states are the same and their contexts equal at the resolution — for all sequences, iff no
context lies between two that are equal at the resolution and is not equal to them. -/
theorem grouped_iff (E : ExeContexts γ) (res : VgRes) :
    (∀ searches : List (List (LostBlock γ)),
      (total searches < iterLimit → ∃ rs st, run printResults (init E res) searches = .ok (rs, st))
      ∧ ∀ rs st, run printResults (init E res) searches = .ok (rs, st) →
        List.Forall₂ (Grouped E res) searches rs) ↔ Contiguous E res := by
  constructor
  · intro hall a b c hab hbc hac
    by_contra hne
    let blocks : List (LostBlock γ) :=
      [⟨⟨.unreached, b⟩, 8, 0⟩, ⟨⟨.unreached, a⟩, 8, 0⟩, ⟨⟨.unreached, c⟩, 8, 0⟩]
    obtain ⟨hreturns, hgrouped⟩ := hall [blocks]
    obtain ⟨rs, st, hrun⟩ := hreturns (show 3 < iterLimit by decide)
    have hg := hgrouped rs st hrun
    obtain ⟨ps, rs', st₁, rfl, hprint, -⟩ := Refinement.exists_of_run_cons hrun
    obtain ⟨st', hacc⟩ := accountAll_between hab hbc hac hne
    have hfirst : (init E res).printResults blocks = (getLrArray st'.table >>= fun q =>
        .ok ([0, 1, 2], { st' with table := q.2 })) := by
      change ((init E res).accountAll blocks >>= _) = _
      rw [hacc]
      rfl
    obtain ⟨q, -, hq⟩ := bind_eq_ok.mp (hfirst.symm.trans hprint)
    cases hq
    -- the blocks of `a` and `c` have records 1 and 2
    have hsame := ((forall₂_cons.mp hg).1.2 ⟨⟨.unreached, a⟩, 8, 0⟩ 1
      ⟨⟨.unreached, c⟩, 8, 0⟩ 2 (by simp [blocks]) (by simp [blocks])).mpr ⟨rfl, hac⟩
    exact absurd hsame (by decide)
  · intro hE searches
    rcases run_grouped hE holds_init searches with ⟨e, herr, hlim⟩ | ⟨rs, st, hrun, hall⟩
    · rw [herr]
      rw [card_empty, zero_add] at hlim
      exact ⟨fun hlt => absurd hlt (not_lt.mpr hlim), nofun⟩
    · refine ⟨fun _ => ⟨rs, st, hrun⟩, fun rs' st' hrun' => ?_⟩
      obtain ⟨rfl, -⟩ := Prod.mk.inj (Except.ok.inj (hrun.symm.trans hrun'))
      exact hall

/-- Three contexts; the first and the last have their two top callers in common. -/
def twoTogether : ExeContexts (Fin 3) where
  addr := ![0x1000, 0x2000, 0x3000]
  addr_injective a b := by revert a b; decide
  epoch _ := 0
  ips := ![[10, 20, 30], [11, 21], [10, 20, 40]]
  ips_ne_nil e := by fin_cases e <;> simp

/-- **The order of blocks decides.**  Of three blocks, two have the same state and equal contexts.
They get records of their own if the third comes first, and one record if it comes last. -/
theorem order_splits_record :
    (∃ st, run printResults (init twoTogether .lowRes)
      [[⟨⟨.unreached, 1⟩, 8, 0⟩, ⟨⟨.unreached, 0⟩, 8, 0⟩, ⟨⟨.unreached, 2⟩, 8, 0⟩]]
        = .ok ([[0, 1, 2]], st))
    ∧ (∃ st, run printResults (init twoTogether .lowRes)
      [[⟨⟨.unreached, 0⟩, 8, 0⟩, ⟨⟨.unreached, 2⟩, 8, 0⟩, ⟨⟨.unreached, 1⟩, 8, 0⟩]]
        = .ok ([[0, 0, 1]], st))
    ∧ twoTogether.eqExeContext .lowRes 0 2 = true :=
  ⟨⟨_, rfl⟩, ⟨_, rfl⟩, by decide⟩

end LossRecords

end Valgrind.Memcheck
