import Valgrind.Drd.BitmapRefine

/-!
# Drd/BitmapRuns — whole runs of operations on bitmaps

Any sequence of operations on any number of bitmaps returns what the abstract state says.  The
abstract state has to say which blocks are *present*: `bm_mark` marks the blocks for which the other
bitmap has a node, also one without accesses.
-/

namespace Valgrind.Drd

open List AbsBitmaps AccessSize Refinement

namespace Bitmaps

/-! ## Operations -/

/-- The kinds of accesses that `bm_clear` and `bm_has_any` come for. -/
inductive Kinds where
  | load | store | access
deriving DecidableEq, Repr

/-- The kinds as a predicate. -/
def Kinds.has : Kinds → Access → Bool
  | .load => only .load
  | .store => only .store
  | .access => both

/-- The operations on bitmaps. -/
inductive Op (ι : Type) where
  | access (i : ι) (k : Access) (a1 : Addr) (n : AccessSize)
  | accessRange (i : ι) (k : Access) (a1 a2 : Addr)
  | clear (i : ι) (kinds : Kinds) (a1 a2 : Addr)
  | testAndClear (i : ι) (a1 a2 : Addr)
  | merge2 (l r : ι)
  | unmark (i : ι)
  | mark (l r : ι)
  | clearMarked (i : ι)
  | merge2Marked (l r : ι)
  | removeClearedMarked (i : ι)
  | hasAny (i : ι) (kinds : Kinds) (a1 a2 : Addr)
  | has1 (i : ι) (a : Addr) (accessType : BmAccessType)
  | hasConflictWith (i : ι) (k : Access) (a1 a2 : Addr)
  | sizedHasConflictWith (i : ι) (k : Access) (a1 : Addr) (n : AccessSize)
deriving DecidableEq, Repr

variable {ι : Type} [DecidableEq ι]

/-- `bm_clear`, `bm_clear_load`, `bm_clear_store`. -/
def clearKinds (s : Bitmaps ι) (i : ι) : Kinds → Addr → Addr → Except Abort (Bitmaps ι)
  | .load => s.bmClearLoad i
  | .store => s.bmClearStore i
  | .access => s.bmClear i

/-- `bm_has_any_access`, `bm_has_any_load`, `bm_has_any_store`. -/
def hasAnyKinds (s : Bitmaps ι) (i : ι) : Kinds → Addr → Addr → Except Abort (Bool × Bitmaps ι)
  | .load => s.bmHasAnyLoad i
  | .store => s.bmHasAnyStore i
  | .access => s.bmHasAnyAccess i

/-- An operation that returns nothing. -/
def quiet (x : Except Abort (Bitmaps ι)) : Except Abort (Option Bool × Bitmaps ι) := (none, ·) <$> x

/-- An operation that returns a truth value. -/
def answer (x : Except Abort (Bool × Bitmaps ι)) : Except Abort (Option Bool × Bitmaps ι) :=
  (fun p => (some p.1, p.2)) <$> x

/-- One operation. -/
def step (s : Bitmaps ι) : Op ι → Except Abort (Option Bool × Bitmaps ι)
  | .access i k a1 n => quiet (s.bmAccessSized i k a1 n)
  | .accessRange i k a1 a2 => quiet (s.bmAccessRange i a1 a2 k.type)
  | .clear i kinds a1 a2 => quiet (s.clearKinds i kinds a1 a2)
  | .testAndClear i a1 a2 => answer (s.bmTestAndClear i a1 a2)
  | .merge2 l r => quiet (s.bmMerge2 l r)
  | .unmark i => quiet (s.bmUnmark i)
  | .mark l r => quiet (s.bmMark l r)
  | .clearMarked i => quiet (s.bmClearMarked i)
  | .merge2Marked l r => quiet (s.bmMerge2Marked l r)
  | .removeClearedMarked i => quiet (s.bmRemoveClearedMarked i)
  | .hasAny i kinds a1 a2 => answer (s.hasAnyKinds i kinds a1 a2)
  | .has1 i a accessType => answer (.ok (s.bmHas1 i a accessType))
  | .hasConflictWith i k a1 a2 => answer (s.bmRangeHasConflictWith i k a1 a2)
  | .sizedHasConflictWith i k a1 n => answer (s.bmSizedHasConflictWith i k a1 n)

end Bitmaps

namespace AbsBitmaps

variable {ι : Type} [DecidableEq ι]

open Bitmaps (Op anyIn anyOf conflicting both)

/-- No bits, no marks, no blocks. -/
def empty : AbsBitmaps ι := ⟨fun _ _ _ => false, fun _ _ => false, fun _ _ => false⟩

/-- Has an address of a range a bit of some kinds? -/
def hasAny (A : AbsBitmaps ι) (i : ι) (kinds : Access → Bool) (a1 a2 : ℕ) : Bool :=
  anyIn a1 a2 fun a => anyOf kinds fun k => A.bits i k a

/-- One operation. -/
def act (A : AbsBitmaps ι) : Op ι → Option Bool × AbsBitmaps ι
  | .access i k a1 n => (none, A.access i k a1 (a1 + n.bytes))
  | .accessRange i k a1 a2 => (none, A.access i k a1 a2)
  | .clear i kinds a1 a2 => (none, A.clear i kinds.has a1 a2)
  | .testAndClear i a1 a2 => (some (A.hasAny i both a1 a2), A.clear i both a1 a2)
  | .merge2 l r => (none, A.merge2 l r)
  | .unmark i => (none, A.unmark i)
  | .mark l r => (none, A.mark l r)
  | .clearMarked i => (none, A.clearMarked i)
  | .merge2Marked l r => (none, A.merge2Marked l r)
  | .removeClearedMarked i => (none, A.removeClearedMarked i)
  | .hasAny i kinds a1 a2 => (some (A.hasAny i kinds.has a1 a2), A)
  | .has1 i a accessType => (some (A.bits i (if accessType = .eLoad then .load else .store) a), A)
  | .hasConflictWith i k a1 a2 => (some (A.hasAny i (conflicting k) a1 a2), A)
  | .sizedHasConflictWith i k a1 n => (some (A.hasAny i (conflicting k) a1 (a1 + n.bytes)), A)

end AbsBitmaps

namespace Bitmaps

variable {ι : Type} [DecidableEq ι] {s : Bitmaps ι} {a2 a1 a : ℕ}

/-- What the code asserts of an operation's arguments, and that they do not touch the last
second-level block; a range that is accessed does not even reach it. -/
def Op.Admitted : Op ι → Prop
  | .access _ _ a1 n => a1 + n.bytes ≤ 2 ^ 64 - 4096
  | .accessRange _ _ a1 a2 => a1 ≤ a2 ∧ a2 < 2 ^ 64 - 4096
  | .clear _ _ a1 a2 => a1 ≠ 0 ∧ a1 ≤ a2 ∧ a2 ≤ 2 ^ 64 - 4096
  | .testAndClear _ a1 a2 => a1 ≠ 0 ∧ a1 ≤ a2 ∧ a2 ≤ 2 ^ 64 - 4096
  | .merge2 l r => l ≠ r
  | .merge2Marked l r => l ≠ r
  | .hasAny _ _ _ a2 => a2 ≤ 2 ^ 64 - 4096
  | .has1 _ a _ => a < 2 ^ 64 - 4096
  | .hasConflictWith _ _ _ a2 => a2 ≤ 2 ^ 64 - 4096
  | .sizedHasConflictWith _ _ a1 n => a1 + n.bytes ≤ 2 ^ 64 - 4096
  | .unmark _ | .mark _ _ | .clearMarked _ | .removeClearedMarked _ => True

/-- A sound memory, and the abstract state it stands for. -/
def Holds (s : Bitmaps ι) (A : AbsBitmaps ι) : Prop := Sound s ∧ view s.block = A

omit [DecidableEq ι] in
theorem holds_init (junk : Bm2Ptr → Bitmap2) : Holds (init junk : Bitmaps ι) .empty := by
  exact ⟨⟨fun _ => List.Pairwise.nil, fun _ _ _ h => absurd h not_mem_nil,
    fun _ _ _ h => absurd h not_mem_nil, fun _ _ _ _ _ h => absurd h not_mem_nil,
    fun _ _ _ h => absurd h not_mem_nil, ⟨nodup_nil, fun _ h => absurd h not_mem_nil⟩,
    fun _ => coherent_bmInit⟩, rfl⟩

omit [DecidableEq ι] in
theorem quiet_ok {A : AbsBitmaps ι} {x : Except Abort (Bitmaps ι)} (h : Becomes x A) :
    ∃ s', quiet x = .ok (none, s') ∧ Holds s' A := by
  obtain ⟨s', rfl, hs', hview⟩ := h
  exact ⟨s', rfl, hs', hview⟩

omit [DecidableEq ι] in
theorem answer_ok {x : Except Abort (Bool × Bitmaps ι)} {r : Bool} (h : Answers s x r) :
    ∃ s', answer x = .ok (some r, s') ∧ Holds s' (view s.block) := by
  obtain ⟨s', rfl, hs', hsame⟩ := h
  exact ⟨s', rfl, hs', by rw [hsame.block]⟩

theorem Sound.clearKinds (h : Sound s) (i : ι) (kinds : Kinds) (h0 : a1 ≠ 0)
    (h12 : a1 ≤ a2) (h2 : a2 ≤ 2 ^ 64 - 4096) :
    Becomes (s.clearKinds i kinds a1 a2) ((view s.block).clear i kinds.has a1 a2) := by
  obtain ⟨s', hok, hs'⟩ := h.bmClearOf i kinds.has h0 h12 h2
  exact ⟨s', by rw [← hok]; cases kinds <;> rfl, hs'⟩

theorem Sound.hasAnyKinds (h : Sound s) (i : ι) (kinds : Kinds) (a1 : ℕ)
    (h2 : a2 ≤ 2 ^ 64 - 4096) :
    Answers s (s.hasAnyKinds i kinds a1 a2) ((view s.block).hasAny i kinds.has a1 a2) := by
  cases kinds with
  | load | store =>
    refine h.bmHasKinds _ i a1 h2 fun p1 x => ?_
    rw [bm0IsSet_decide]
    simp [anyOf, Kinds.has, only, Bitmap1.get]
  | access => exact h.bmHasAnyAccess i a1 a2 h2

/-- **A conflict of an access to a range.** -/
theorem Sound.bmRangeHasConflictWith (h : Sound s) (i : ι) (k : Access) (a1 : ℕ)
    (h2 : a2 ≤ 2 ^ 64 - 4096) :
    Answers s (s.bmRangeHasConflictWith i k a1 a2)
      ((view s.block).hasAny i (conflicting k) a1 a2) := by
  refine h.bmHasKinds (conflicting k) i a1 h2 fun p1 x => ?_
  cases k with
  | load =>
    rw [if_pos (show Access.load.type = BmAccessType.eLoad from rfl), bm0IsSet_decide]
    simp [anyOf, conflicting, only, Bitmap1.get]
  | store => exact congrArg Except.ok (bm0IsSet_or_decide p1.bm0R p1.bm0W x)

theorem Sound.bmSizedHasConflictWith (h : Sound s) (i : ι) (k : Access) (a1 : ℕ) (n : AccessSize)
    (hlast : a1 + n.bytes ≤ 2 ^ 64 - 4096) :
    Answers s (s.bmSizedHasConflictWith i k a1 n)
      ((view s.block).hasAny i (conflicting k) a1 (a1 + n.bytes)) := by
  have haligned := h.bmAlignedHasConflictWith i k a1
  have hrange : ∀ m, a1 + m ≤ 2 ^ 64 - 4096 →
      Answers s (s.bmHasConflictWith i a1 ((a1 + m) % 2 ^ 64) k.type)
        ((view s.block).hasAny i (conflicting k) a1 (a1 + m)) := by
    intro m hm
    have hmod : (a1 + m) % 2 ^ 64 = a1 + m := Nat.mod_eq_of_lt (by omega)
    rw [hmod]
    exact h.bmRangeHasConflictWith i k a1 hm
  cases n <;> rw [bytes] at hlast ⊢ <;> rw [Bitmaps.bmSizedHasConflictWith]
  case one => exact haligned 1 (by omega)
  case two =>
    exact ite_aligned (P := (Answers s · _)) 1 (fun _ => haligned 2 (by omega)) fun _ => hrange 2 hlast
  case four =>
    exact ite_aligned (P := (Answers s · _)) 2 (fun _ => haligned 4 (by omega)) fun _ => hrange 4 hlast
  case eight =>
    exact ite_aligned (P := (Answers s · _)) 3 (fun _ => haligned 8 (by omega)) fun _ => hrange 8 hlast

/-- **Every operation does what the abstract one does.** -/
theorem refines_step : Refines step act (fun _ _ (op : Op ι) => op.Admitted) Holds := by
  rintro s _ op ⟨h, rfl⟩ hop
  cases op with
  | access i k a1 n => exact quiet_ok (h.bmAccessSized n hop)
  | accessRange i k a1 a2 => exact quiet_ok (h.bmAccessRange i k hop.1 hop.2)
  | clear i kinds a1 a2 => exact quiet_ok (h.clearKinds i kinds hop.1 hop.2.1 hop.2.2)
  | testAndClear i a1 a2 =>
    obtain ⟨h0, h12, h2⟩ := hop
    obtain ⟨s₁, hok₁, hs₁, hsame⟩ := h.bmHasAnyAccess i a1 a2 h2
    obtain ⟨s', hok, hs', hview⟩ := hs₁.clearKinds i .access h0 h12 h2
    refine ⟨s', ?_, hs', hview.trans (by rw [hsame.block]; rfl)⟩
    rw [step, bmTestAndClear, hok₁, ok_bind]
    dsimp only
    rw [show s₁.bmClear i a1 a2 = _ from hok]
    rfl
  | merge2 l r => exact quiet_ok (h.bmMerge2 hop)
  | unmark i => exact quiet_ok (h.bmUnmark i)
  | mark l r => exact quiet_ok (h.bmMark l r)
  | clearMarked i => exact quiet_ok (h.bmClearMarked i)
  | merge2Marked l r => exact quiet_ok (h.bmMerge2Marked hop)
  | removeClearedMarked i => exact quiet_ok (h.bmRemoveClearedMarked i)
  | hasAny i kinds a1 a2 => exact answer_ok (h.hasAnyKinds i kinds a1 hop)
  | has1 i a accessType => exact answer_ok (h.bmHas1 i a accessType)
  | hasConflictWith i k a1 a2 => exact answer_ok (h.bmRangeHasConflictWith i k a1 hop)
  | sizedHasConflictWith i k a1 n => exact answer_ok (h.bmSizedHasConflictWith i k a1 n hop)

/-! ## Runs -/

theorem run_refines (junk : Bm2Ptr → Bitmap2) {ops : List (Op ι)} (hops : ∀ op ∈ ops, op.Admitted) :
    ∃ s, run step (init junk) ops = .ok ((absRun act .empty ops).1, s)
      ∧ Holds s (absRun act .empty ops).2 :=
  refines_step.run (holds_init junk) (admits_of_forall hops)

end Bitmaps

end Valgrind.Drd
