import Valgrind.Drd.BitmapRuns
import Valgrind.Drd.ClockAlgebra
import Valgrind.Drd.Thread

/-!
# Drd/ConflictSet — updating the conflict set gives what computing it anew gives

`thread_update_conflict_set` looks only at segments that may have entered or left the conflict set,
marks the blocks recorded in them, clears these and merges them again.  Clocks increase along a
thread, so the scans that stop early miss nothing: each is a fold over *all* segments of other
threads that changed, or that are concurrent.  What the folds do to the bits is then compared block
by block: `conflict_set_updated`.
-/

namespace Valgrind.Drd

open List List.Pairwise
open Bitmaps (Sound)

/-! ## The order of clocks -/

namespace VectorClock

/-- The order that `vc_lte` decides. -/
def Le (a b : VectorClock) : Prop := ∀ t, a.count t ≤ b.count t

theorem Le.trans {a b c : VectorClock} (h : a.Le b) (h' : b.Le c) : a.Le c := fun t =>
  (h t).trans (h' t)

/-- Neither is ordered before the other. -/
def Concurrent (a b : VectorClock) : Prop := ¬ a.Le b ∧ ¬ b.Le a

end VectorClock

open VectorClock (Le Concurrent)

open scoped Classical in
theorem vcLte_eq {a b : VectorClock} (ha : a.Valid) (hb : b.Valid) :
    vcLte a b = .ok (decide (a.Le b)) := by
  obtain ⟨r, hr, hiff⟩ := vcLte_spec ha hb
  have heq : r = decide (a.Le b) := by
    rw [Bool.eq_iff_iff, decide_eq_true_iff]
    exact hiff
  rw [hr, heq]

/-! ## Folds over segments -/

/-- A test that each step of a fold may turn on. -/
theorem foldl_or {σ α : Type} {f : σ → α → σ} {P : σ → Bool} {Q : σ → α → Bool}
    (hP : ∀ A q, P (f A q) = (P A || Q A q)) (hQ : ∀ A q q', Q (f A q) q' = Q A q')
    (l : List α) (A : σ) : P (l.foldl f A) = (P A || l.any (Q A)) := by
  induction l generalizing A with
  | nil => simp
  | cons q l ih =>
    have hsame : Q (f A q) = Q A := funext (hQ A q)
    rw [foldl_cons, ih, hP, hsame, any_cons, Bool.or_assoc]

namespace AbsBitmaps

/-- The blocks present in a segment are marked in the conflict set. -/
def markStep (A : AbsBitmaps BmId) (q : Seg) : AbsBitmaps BmId := A.mark .conflictSet (.sg q)

/-- A segment is merged into the conflict set. -/
def mergeStep (A : AbsBitmaps BmId) (q : Seg) : AbsBitmaps BmId := A.merge2 .conflictSet (.sg q)

/-- A segment is merged into the marked blocks. -/
def remergeStep (A : AbsBitmaps BmId) (q : Seg) : AbsBitmaps BmId :=
  A.merge2Marked .conflictSet (.sg q)

/-- **The bits after an update**: marked blocks are rebuilt, the others left. -/
theorem bits_rebuilt (A : AbsBitmaps BmId) (ch cn : List Seg) (k : Access) (a : ℕ) :
    (cn.foldl remergeStep ((ch.foldl markStep (A.unmark .conflictSet)).clearMarked .conflictSet)).bits
        .conflictSet k a
      = if ch.any fun q => A.present (.sg q) (a / 4096) then cn.any fun q => A.bits (.sg q) k a
        else A.bits .conflictSet k a := by
  have hbits : (ch.foldl markStep (A.unmark .conflictSet)).bits = A.bits :=
    List.foldlRecOn (motive := fun B : AbsBitmaps BmId => B.bits = A.bits) ch markStep rfl
      fun _ hB _ _ => hB
  have hmarked := foldl_or (f := markStep) (P := fun A => A.marked .conflictSet (a / 4096))
    (Q := fun A q => A.present (.sg q) (a / 4096)) (fun _ _ => by simp [markStep, mark])
    (fun _ _ _ => by simp [markStep, mark]) ch (A.unmark .conflictSet)
  have hremerge := foldl_or (f := remergeStep) (P := fun A => A.bits .conflictSet k a)
    (Q := fun A q => A.marked .conflictSet (a / 4096) && A.bits (.sg q) k a)
    (fun _ _ => by simp [remergeStep, merge2Marked]) (fun _ _ _ => by simp [remergeStep, merge2Marked])
    cn ((ch.foldl markStep (A.unmark .conflictSet)).clearMarked .conflictSet)
  rw [hremerge]
  simp only [clearMarked, hmarked, hbits]
  simp only [unmark]
  cases ch.any fun q => A.present (.sg q) (a / 4096) <;> simp

end AbsBitmaps

open AbsBitmaps

/-- A bit is in a block that is present. -/
theorem present_of_bits {ι : Type} {B : ι → UWord → Option Bitmap2} {i : ι} {k : Access} {a : ℕ}
    (h : (view B).bits i k a = true) : (view B).present i (a / 4096) = true := by
  rw [view_bits] at h
  rw [view_present]
  cases hB : B i (a / 4096) with
  | none => simp [hB] at h
  | some n => rfl

/-- A call does to the bitmaps what a fold over segments does. -/
def Folds (step : AbsBitmaps BmId → Seg → AbsBitmaps BmId) (l : List Seg) (s : Bitmaps BmId)
    (call : Except Abort (Bitmaps BmId)) : Prop :=
  ∃ s', call = .ok s' ∧ Sound s' ∧ view s'.block = l.foldl step (view s.block)

section Folds

variable {step : AbsBitmaps BmId → Seg → AbsBitmaps BmId} {s : Bitmaps BmId}

theorem Folds.nil (hs : Sound s) : Folds step [] s (.ok s) := ⟨s, rfl, hs, rfl⟩

theorem Folds.bind {l₁ l₂ : List Seg} {call : Except Abort (Bitmaps BmId)}
    {rest : Bitmaps BmId → Except Abort (Bitmaps BmId)} (h : Folds step l₁ s call)
    (hrest : ∀ s', Sound s' → Folds step l₂ s' (rest s')) :
    Folds step (l₁ ++ l₂) s (call >>= rest) := by
  obtain ⟨s₁, rfl, hs₁, hview₁⟩ := h
  obtain ⟨s', hok, hs', hview⟩ := hrest s₁ hs₁
  exact ⟨s', hok, hs', by rw [hview, hview₁, foldl_append]⟩

end Folds

namespace Threads

open scoped Classical

variable {n a : ℕ} {t : Threads n} {tid : Fin n} {old new c : VectorClock} {s : Bitmaps BmId}
  {q : Seg}
  {l : List Seg}

/-- The clocks of a list of segments, from the last one on: they are clocks, and go down. -/
structure Descends (t : Threads n) (l : List Seg) : Prop where
  valid : ∀ q ∈ l, (t.vc q).Valid
  down : l.Pairwise fun q q' => (t.vc q').Le (t.vc q)

theorem Descends.tail (h : t.Descends (q :: l)) : t.Descends l :=
  ⟨fun q' hq' => h.valid q' (mem_cons_of_mem _ hq'), (pairwise_cons.mp h.down).2⟩

/-- What follows a segment that is ordered before a clock is ordered before it too. -/
theorem Descends.le_of_head (h : t.Descends (q :: l)) (hq : (t.vc q).Le c) :
    ∀ q' ∈ q :: l, (t.vc q').Le c :=
  forall_mem_cons.mpr ⟨hq, fun q' hq' => ((pairwise_cons.mp h.down).1 q' hq').trans hq⟩

/-- The segment is concurrent with the clock. -/
noncomputable def conc (t : Threads n) (c : VectorClock) (q : Seg) : Bool :=
  decide (Concurrent (t.vc q) c)

/-- The segment enters or leaves the conflict set. -/
noncomputable def changed (t : Threads n) (old new : VectorClock) (q : Seg) : Bool :=
  t.conc old q != t.conc new q

theorem conc_of_not_le (h : ¬ (t.vc q).Le c) : t.conc c q = !decide (c.Le (t.vc q)) := by
  rw [conc, ← decide_not]
  exact decide_eq_decide.mpr (and_iff_right h)

theorem conc_of_le (h : (t.vc q).Le c) : t.conc c q = false := decide_eq_false fun hc => hc.1 h

/-! ## The loops -/

theorem markIf_spec (t : Threads n) (hs : Sound s) {x y : Bool} (hx : t.conc old q = x)
    (hy : t.conc new q = y) : Folds markStep ([q].filter (t.changed old new)) s (markIf q x y s) := by
  have hchanged : t.changed old new q = decide (x ≠ y) := by
    rw [changed, hx, hy]
    cases x <;> cases y <;> rfl
  rw [markIf, filter_singleton, hchanged]
  by_cases hxy : x = y
  · rw [if_neg (not_not.mpr hxy), decide_eq_false (not_not.mpr hxy)]
    exact .nil hs
  · rw [if_pos hxy, decide_eq_true hxy]
    exact hs.bmMark .conflictSet (.sg q)

/-- The second loop sees, of the segments ordered before the new clock, those that are not ordered
before the old one. -/
theorem markOlder_spec (hold : old.Valid) (hnew : new.Valid) (hl : t.Descends l)
    (hbelow : ∀ q ∈ l, (t.vc q).Le new) (hs : Sound s) :
    Folds markStep (l.filter (t.changed old new)) s (t.markOlder old new l s) := by
  induction l generalizing s with
  | nil => exact .nil hs
  | cons q l ih =>
    have hq := hl.valid q mem_cons_self
    simp only [markOlder, vcLte_eq hq hold, vcLte_eq hold hq, vcLte_eq hq hnew, vcLte_eq hnew hq,
      ok_bind, decide_eq_true_eq]
    split_ifs with hqo
    · have hnone : (q :: l).filter (t.changed old new) = [] := by
        refine filter_eq_nil_iff.mpr fun q' hq' => ?_
        rw [changed, conc_of_le (hl.le_of_head hqo q' hq'), conc_of_le (hbelow q' hq')]
        exact Bool.false_ne_true
      rw [hnone]
      exact .nil hs
    · obtain ⟨hqn, hbelow⟩ := forall_mem_cons.mp hbelow
      have hnot : t.conc new q = (!decide ((t.vc q).Le new) && !decide (new.Le (t.vc q))) := by
        rw [conc_of_le hqn, decide_eq_true hqn]
        rfl
      rw [← singleton_append, filter_append]
      exact (markIf_spec t hs (conc_of_not_le hqo) hnot).bind fun s' hs' => ih hl.tail hbelow hs'

/-- The first loop sees those that are not ordered before the new clock, and leaves the others to the
second. -/
theorem markBoth_spec (hold : old.Valid) (hnew : new.Valid) (hle : old.Le new) (hl : t.Descends l)
    (hs : Sound s) : Folds markStep (l.filter (t.changed old new)) s (do
      let (rest, s) ← t.markNewer old new l s
      t.markOlder old new rest s) := by
  induction l generalizing s with
  | nil => exact .nil hs
  | cons q l ih =>
    have hq := hl.valid q mem_cons_self
    simp only [markNewer, vcLte_eq hq hnew, vcLte_eq hold hq, vcLte_eq hnew hq, ok_bind,
      decide_eq_true_eq]
    split_ifs with hqn
    · exact markOlder_spec hold hnew hl (hl.le_of_head hqn) hs
    · have hqo : ¬ (t.vc q).Le old := fun h => hqn (h.trans hle)
      rw [← singleton_append, filter_append, bind_assoc]
      exact (markIf_spec t hs (conc_of_not_le hqo) (conc_of_not_le hqn)).bind fun s' hs' =>
        ih hl.tail hs'

theorem remergeLoop_spec (hnew : new.Valid) (hl : t.Descends l) (hs : Sound s) :
    Folds remergeStep (l.filter (t.conc new)) s (t.remergeLoop new l s) := by
  induction l generalizing s with
  | nil => exact .nil hs
  | cons q l ih =>
    have hq := hl.valid q mem_cons_self
    simp only [remergeLoop, vcLte_eq hq hnew, vcLte_eq hnew hq, ok_bind, decide_eq_true_eq]
    split_ifs with hqn hnq
    · -- nothing behind it is concurrent either
      rw [filter_eq_nil_iff.mpr fun q' hq' => by simp [conc_of_le (hl.le_of_head hqn q' hq')]]
      exact .nil hs
    · rw [filter_cons_of_neg (by simp [conc_of_not_le hqn, hnq])]
      exact ih hl.tail hs
    · rw [filter_cons_of_pos (by simp [conc_of_not_le hqn, hnq]), ← singleton_append]
      exact Folds.bind (hs.bmMerge2Marked (by simp)) fun s' hs' => ih hl.tail hs'

theorem computeLoop_spec (hnew : new.Valid) (hl : ∀ q ∈ l, (t.vc q).Valid) (hs : Sound s) :
    Folds mergeStep (l.filter (t.conc new)) s (t.computeLoop new l s) := by
  induction l generalizing s with
  | nil => exact .nil hs
  | cons q l ih =>
    obtain ⟨hq, hl⟩ := forall_mem_cons.mp hl
    have hcall : Folds mergeStep ([q].filter (t.conc new)) s (t.mergeIfConcurrent new q s) := by
      simp only [mergeIfConcurrent, vcLte_eq hq hnew, vcLte_eq hnew hq, ok_bind, decide_eq_true_eq,
        filter_singleton]
      split_ifs with hqn hnq
      · rw [conc_of_le hqn]
        exact .nil hs
      · rw [conc_of_not_le hqn, decide_eq_true hnq]
        exact .nil hs
      · rw [conc, decide_eq_true ⟨hqn, hnq⟩]
        exact hs.bmMerge2 (by simp)
    rw [← singleton_append, filter_append]
    exact hcall.bind fun s' hs' => ih hl hs'

/-- The segments of other threads, thread by thread from the last on. -/
def others (t : Threads n) (tid : Fin n) : List Seg :=
  (List.finRange n).flatMap fun j => if j ≠ tid ∧ t.isValidDrdThreadId j then t.fromLast j else []

/-- A loop that folds over some segments of each other thread. -/
theorem forOthers_spec (tid : Fin n) (body : Fin n → Bitmaps BmId → Except Abort (Bitmaps BmId))
    {step : AbsBitmaps BmId → Seg → AbsBitmaps BmId} {p : Seg → Bool}
    (hbody : ∀ j s, j ≠ tid ∧ t.isValidDrdThreadId j → Sound s →
      Folds step ((t.fromLast j).filter p) s (body j s))
    (hskip : ∀ j s, ¬ (j ≠ tid ∧ t.isValidDrdThreadId j) → body j s = .ok s) (hs : Sound s) :
    Folds step ((t.others tid).filter p) s (forThreads body (List.finRange n) s) := by
  rw [others]
  generalize List.finRange n = js
  induction js generalizing s with
  | nil => exact .nil hs
  | cons j js ih =>
    rw [flatMap_cons, filter_append, forThreads]
    refine Folds.bind ?_ fun s' hs' => ih hs'
    split_ifs with hj
    · exact hbody j s hj hs
    · rw [hskip j s hj]
      exact .nil hs

/-! ## The conflict set -/

/-- **What has been recorded in segments of other threads that are concurrent with a clock.** -/
def Conflicts (t : Threads n) (tid : Fin n) (c : VectorClock) (k : Access) (a : ℕ) : Prop :=
  ∃ j, j ≠ tid ∧ t.isValidDrdThreadId j = true ∧ ∃ q ∈ t.segs j,
    Concurrent (t.vc q) c ∧ (view t.bms.block).bits (.sg q) k a = true

/-- Along each thread the segments' clocks increase. -/
structure Increases (t : Threads n) : Prop where
  valid : ∀ j, ∀ q ∈ t.segs j, (t.vc q).Valid
  up : ∀ j, (t.segs j).Pairwise fun q q' => (t.vc q).Le (t.vc q')

theorem Increases.descends (h : t.Increases) (j : Fin n) : t.Descends (t.fromLast j) :=
  ⟨fun q hq => h.valid j q (mem_reverse.mp hq), pairwise_reverse.mpr (h.up j)⟩

theorem mem_others : q ∈ t.others tid
    ↔ ∃ j, j ≠ tid ∧ t.isValidDrdThreadId j = true ∧ q ∈ t.segs j := by
  rw [others, mem_flatMap]
  refine exists_congr fun j => ?_
  split_ifs with hj
  · simp [hj, fromLast]
  · simp only [not_mem_nil, and_false, false_iff]
    exact fun h => hj ⟨h.1, h.2.1⟩

theorem conflicts_iff {k : Access} : t.Conflicts tid c k a
    ↔ ∃ q ∈ t.others tid, t.conc c q = true ∧ (view t.bms.block).bits (.sg q) k a = true := by
  simp only [mem_others, conc, decide_eq_true_eq]
  constructor
  · rintro ⟨j, hj, hv, q, hq, hc⟩
    exact ⟨q, ⟨j, hj, hv, hq⟩, hc⟩
  · rintro ⟨q, ⟨j, hj, hv, hq⟩, hc⟩
    exact ⟨j, hj, hv, q, hq, hc⟩

/-- An unmarked block holds what it should, since no segment recorded in it changed; a marked one is
rebuilt. -/
theorem rebuilt_iff {k : Access}
    (hbefore : (view t.bms.block).bits .conflictSet k a = true ↔ t.Conflicts tid old k a) :
    (if ((t.others tid).filter (t.changed old new)).any
          fun q => (view t.bms.block).present (.sg q) (a / 4096)
        then ((t.others tid).filter (t.conc new)).any fun q => (view t.bms.block).bits (.sg q) k a
        else (view t.bms.block).bits .conflictSet k a) = true ↔ t.Conflicts tid new k a := by
  split_ifs with hm
  · simp only [conflicts_iff, any_filter, any_eq_true, Bool.and_eq_true]
  · rw [hbefore, conflicts_iff, conflicts_iff]
    refine exists_congr fun q => and_congr_right fun hq => and_congr_left fun hbit => ?_
    -- a segment with this bit has not changed
    have hsame : t.conc old q = t.conc new q := by
      by_contra hne
      refine hm (any_eq_true.mpr ⟨q, mem_filter.mpr ⟨hq, ?_⟩, present_of_bits hbit⟩)
      exact bne_iff_ne.mpr hne
    rw [hsame]

/-- **Updating the conflict set gives what computing it anew gives.**  If it holds what is recorded
in segments concurrent with the old clock, it holds afterwards what is recorded in segments
concurrent with the new one, and so does the set that `thread_compute_conflict_set` computes. -/
theorem conflict_set_updated {p : Seg} (h : t.Increases) (hs : Sound t.bms)
    (htid : tid.val ≠ drdInvalidThreadid) (hrun : t.runningTid = tid)
    (hp : (t.segs tid).getLast? = some p) (hold : old.Valid)
    (hle : vcLte old (t.vc p) = .ok true)
    (hbefore : ∀ k a, (view t.bms.block).bits .conflictSet k a = true ↔ t.Conflicts tid old k a) :
    ∃ t' t'', t.threadUpdateConflictSet tid old = .ok t'
      ∧ t.threadComputeConflictSet tid = .ok t''
      ∧ (∀ k a, (view t'.bms.block).bits .conflictSet k a = true ↔ t.Conflicts tid (t.vc p) k a)
      ∧ (view t''.bms.block).bits .conflictSet = (view t'.bms.block).bits .conflictSet := by
  have hnew : (t.vc p).Valid := h.valid tid p (mem_of_getLast? hp)
  have hle' : old.Le (t.vc p) := (vcLte_eq_true_iff hold hnew).mp hle
  have hlast : t.sgLast tid = .ok p := by rw [sgLast, hp]
  have hvc : t.threadGetVc tid = .ok (t.vc p) := by
    rw [threadGetVc, vgAssert_bind htid, hp]
    rfl
  -- the update, step by step
  obtain ⟨s₁, hok₁, hs₁, hview₁⟩ := hs.bmUnmark .conflictSet
  obtain ⟨s₂, hok₂, hs₂, hview₂⟩ := forOthers_spec tid (t.markThread tid old (t.vc p))
    (fun j s hj hs => by
      rw [markThread, if_neg fun hno => hno.elim hj.1 fun hno => hno hj.2]
      exact markBoth_spec hold hnew hle' (h.descends j) hs)
    (fun j s hj => if_pos (by tauto)) hs₁
  obtain ⟨s₃, hok₃, hs₃, hview₃⟩ := hs₂.bmClearMarked .conflictSet
  obtain ⟨s₄, hok₄, hs₄, hview₄⟩ := forOthers_spec tid
    (fun j s => if j ≠ tid ∧ t.isValidDrdThreadId j
      then t.remergeLoop (t.vc p) (t.fromLast j) s else .ok s)
    (fun j s hj hs => by rw [if_pos hj]; exact remergeLoop_spec hnew (h.descends j) hs)
    (fun j s hj => if_neg hj) hs₃
  obtain ⟨s₅, hok₅, hs₅, hview₅⟩ := hs₄.bmRemoveClearedMarked .conflictSet
  have hupdate : t.threadUpdateConflictSet tid old = .ok { t with bms := s₅ } := by
    rw [threadUpdateConflictSet, vgAssert_bind htid, vgAssert_bind hrun.symm, hvc, ok_bind, hle,
      ok_bind, vgAssert_bind rfl, hok₁, ok_bind, hok₂, ok_bind, hok₃, ok_bind, hlast, ok_bind, hok₄,
      ok_bind, hok₅]
    rfl
  -- the computation, from a bitmap without bits
  obtain ⟨hs₆, hblock₆⟩ := hs.cleanupInit .conflictSet
  obtain ⟨s₇, hok₇, hs₇, hview₇⟩ := forOthers_spec tid
    (fun j s => if j ≠ tid ∧ t.isValidDrdThreadId j
      then t.computeLoop (t.vc p) (t.fromLast j) s else .ok s)
    (fun j s hj hs => by rw [if_pos hj]; exact computeLoop_spec hnew (h.descends j).valid hs)
    (fun j s hj => if_neg hj) hs₆
  have hcompute : t.threadComputeConflictSet tid = .ok { t with bms := s₇ } := by
    rw [threadComputeConflictSet, vgAssert_bind htid, vgAssert_bind hrun.symm, hlast, ok_bind, hok₇]
    rfl
  have hbits₅ : ∀ k a, (view s₅.block).bits .conflictSet k a = true ↔ t.Conflicts tid (t.vc p) k a := by
    intro k a
    rw [hview₅, hview₄, hview₃, hview₂, hview₁]
    exact (Bool.eq_iff_iff.mp (bits_rebuilt _ _ _ k a)).trans (rebuilt_iff (hbefore k a))
  refine ⟨_, _, hupdate, hcompute, hbits₅, ?_⟩
  funext k a
  have hmerge := foldl_or (f := mergeStep) (P := fun A => A.bits .conflictSet k a)
    (Q := fun A q => A.bits (.sg q) k a) (fun _ _ => by simp [mergeStep, merge2])
    (fun _ _ _ => by simp [mergeStep, merge2]) ((t.others tid).filter (t.conc (t.vc p)))
    (view ((t.bms.bmCleanup .conflictSet).setBm .conflictSet bmInit).block)
  rw [Bool.eq_iff_iff, hbits₅, hview₇, hmerge, hblock₆, conflicts_iff]
  simp only [view_bits, any_filter, if_true, Option.any_none, Bool.false_or, any_eq_true,
    Bool.and_eq_true, reduceCtorEq, if_false]

/-- Thread 1 runs; thread 2 has recorded accesses in two segments. -/
def twoThreads (bms : Bitmaps BmId) : Threads 3 where
  valid _ := true
  segs := ![[], [10], [20, 21]]
  sg q := ⟨smallClock (match q with
    | 10 => [⟨1, 1⟩]
    | 11 => [⟨1, 2⟩, ⟨2, 1⟩]
    | 20 => [⟨2, 1⟩]
    | 21 => [⟨2, 2⟩]
    | _ => []), 1⟩
  bms := bms
  runningTid := 1

theorem increases_twoThreads (bms : Bitmaps BmId) : (twoThreads bms).Increases where
  valid j q hq := by
    fin_cases j <;> fin_cases hq <;>
      exact valid_smallClock (by decide) (pairwise_singleton _ _) (by decide)
  up j := by
    fin_cases j
    · exact nil
    · exact pairwise_singleton _ _
    · have hlte : vcLte (smallClock [⟨2, 1⟩]) (smallClock [⟨2, 2⟩]) = .ok true := by decide
      refine pairwise_pair.mpr ((vcLte_eq_true_iff ?_ ?_).mp hlte) <;>
        exact valid_smallClock (by decide) (pairwise_singleton _ _) (by decide)

/-- Before the running thread's first tick nothing is concurrent with it; after it a store of the
other thread is in conflict. -/
theorem conflict_set_updated_store : ∃ t t' : Threads 3,
    t.threadUpdateConflictSet 1 (smallClock []) = .ok t'
      ∧ (view t.bms.block).bits .conflictSet .store 4096 = false
      ∧ (view t'.bms.block).bits .conflictSet .store 4096 = true := by
  have hops : ∀ op ∈ [Bitmaps.Op.access (BmId.sg 20) .store 4096 .one], op.Admitted := by
    simp [Bitmaps.Op.Admitted, AccessSize.bytes]
  obtain ⟨s, -, hs, hview⟩ := Bitmaps.run_refines (fun _ => Bitmaps.newNode 0) hops
  have hnone : ∀ k a, (view s.block).bits .conflictSet k a = false := fun k a => by
    rw [hview]
    rfl
  have hempty : (smallClock []).Valid := valid_smallClock (by decide) nil (by simp)
  have hle : vcLte (smallClock []) (smallClock [⟨1, 1⟩]) = .ok true := by decide
  have hbefore : ∀ k a, (view s.block).bits .conflictSet k a = true
      ↔ (twoThreads s).Conflicts 1 (smallClock []) k a := by
    intro k a
    rw [hnone]
    refine iff_of_false Bool.false_ne_true ?_
    rintro ⟨_, _, _, _, _, hc, _⟩
    refine hc.2 fun u => ?_
    exact (show (smallClock []).count u = 0 from rfl).trans_le zero_le
  obtain ⟨t', -, hok, -, hbits, -⟩ := conflict_set_updated (p := 10) (increases_twoThreads s) hs
    (show (1 : Fin 3).val ≠ drdInvalidThreadid by decide) rfl rfl hempty hle hbefore
  refine ⟨twoThreads s, t', hok, hnone _ _, (hbits _ _).mpr ⟨2, by decide, rfl, 20,
    by simp [twoThreads], ⟨fun h => absurd (h 2) ?_, fun h => absurd (h 1) ?_⟩, ?_⟩⟩
  · change ¬ (smallClock [⟨2, 1⟩]).count 2 ≤ (smallClock [⟨1, 1⟩]).count 2
    decide
  · change ¬ (smallClock [⟨1, 1⟩]).count 1 ≤ (smallClock [⟨2, 1⟩]).count 1
    decide
  · change (view s.block).bits (.sg 20) .store 4096 = true
    rw [hview]
    decide

/-- The last address of all. -/
def lastAddress : Addr := 2 ^ 64 - 1

/-- Both segments of thread 2 record a store there, the conflict set is computed, thread 1 begins a
segment after the first of them, and the set is updated, or computed anew.  Is the store in it? -/
def lastAddressRun : Except Abort (Bool × Bool × Bool) := do
  let s ← (Bitmaps.init fun _ => Bitmaps.newNode 0).bmAccessSized (.sg 20) .store lastAddress .one
  let s ← s.bmAccessSized (.sg 21) .store lastAddress .one
  let t ← (twoThreads s).threadComputeConflictSet 1
  let t := { t with segs := Function.update t.segs 1 [10, 11] }
  let updated ← t.threadUpdateConflictSet 1 (t.vc 10)
  let computed ← t.threadComputeConflictSet 1
  return ((t.bms.bmHas1 .conflictSet lastAddress .eStore).1,
    (updated.bms.bmHas1 .conflictSet lastAddress .eStore).1,
    (computed.bms.bmHas1 .conflictSet lastAddress .eStore).1)

/-- **An update drops the last block**: `bm_remove_cleared_marked` asks for accesses up to the
address behind it, which wraps to 0, finds none and removes the node. -/
theorem last_block_dropped : lastAddressRun = .ok (true, false, true) := by decide +kernel

end Threads

end Valgrind.Drd
