import Valgrind.Aspacemgr.Steps

/-!
# Aspacemgr/Taint — translation-discard requests are never missed

A page is tainted when translations were made from it, until an operation that replaces it asks for
their discard.  The manager keeps one mark (`hasT`) per segment: it is copied when a segment is
split, or-ed when two are merged, and dropped with the segments an operation replaces.

**Invariant** (`Change.marks`): the segment of every tainted page is marked.  So an operation on a
range with a tainted page finds a mark, and asks for a discard (`Change.reports`), along every run
(`discards_never_missed`). -/

namespace Valgrind.Aspacemgr

open NSegment Tiling Aspacem List SegKind Set

/-! ## Tainted addresses -/

/-- The addresses whose translations an operation can ask to discard for good. -/
def Op.replaced : Op → Set ℕ
  | .mmap a len _ _ _ _ => Set.Ico a (a + len)
  | .shmat a len _ => Set.Ico a (a + len)
  | .munmap start len => Set.Ico start (start + len)
  | .munmapClient start len _ => Set.Ico start (start + pgroundup len)
  | .relocate oldAddr oldLen newAddr newLen _ =>
    Set.Ico oldAddr (oldAddr + oldLen) ∪ Set.Ico newAddr (newAddr + newLen)
  | _ => ∅

/-- The addresses that must have no translations after an operation; taking away the permission to
execute counts as well. -/
def Op.invalidated : Op → Set ℕ
  | .mprotect start len prot => if protExec prot then ∅ else Set.Ico start (start + len)
  | op => op.replaced

/-- The tainted addresses after an operation: a mark taints its whole page, and a request to discard
clears what was replaced. -/
def taint (T : Set ℕ) (op : Op) (r : Reply) : Set ℕ :=
  match op with
  | .setHasT addr => if r.success then T ∪ { x | x / pageSize = addr / pageSize } else T
  | op => if r.success && r.needDiscard then T \ op.replaced else T

/-- Along a run that starts with the tainted addresses `T`, every operation that succeeds and
invalidates a tainted address asks for a discard. -/
def NeverMissed : Set ℕ → List Op → List Reply → Prop
  | _, [], [] => True
  | T, op :: ops, r :: rs =>
    (r.success → (T ∩ op.invalidated).Nonempty → r.needDiscard) ∧ NeverMissed (taint T op r) ops rs
  | _, _, _ => False

/-! ## The marks of segments -/

/-- A segment consists of pages, is marked only if it is mapped, and is marked if it has a tainted
address. -/
structure Marks (T : Set ℕ) (s : NSegment) : Prop where
  start_page : s.start % pageSize = 0
  stop_page : (s.stop + 1) % pageSize = 0
  quiet : s.kind.isMapped = false → s.hasT = false
  marked : ∀ x ∈ T, s.start ≤ x → x ≤ s.stop → s.hasT

namespace Marks

variable {T T' : Set ℕ} {s s1 s2 u : NSegment} {p x : ℕ}

theorem of_sane {t : Segnames} (h : saneNSegment t s) : Marks ∅ s := by
  obtain ⟨-, hstart, hstop, hkind⟩ := saneNSegment_iff.mp h
  refine ⟨hstart, hstop, fun hmapped => ?_, fun x hx => absurd hx (notMem_empty x)⟩
  rw [saneKind] at hkind
  cases hk : s.kind <;> simp_all [isMapped, bare]

theorem mono (h : Marks T s) (hT : ∀ x ∈ T', x ∈ T) : Marks T' s :=
  { h with marked := fun x hx => h.marked x (hT x hx) }

theorem split (h : Marks T s) (hlo : s.start < p) (hhi : p ≤ s.stop) (hp : p % pageSize = 0) :
    Marks T (s.split p).1 ∧ Marks T (s.split p).2 := by
  have hpred : p - 1 + 1 = p := Nat.sub_add_cancel (Nat.one_le_of_lt hlo)
  refine ⟨⟨h.start_page, hpred.symm ▸ hp, h.quiet, fun x hx hx₁ hx₂ => ?_⟩,
    ⟨hp, h.stop_page, h.quiet, fun x hx hx₁ hx₂ => ?_⟩⟩
  · have hx₂ : x ≤ p - 1 := hx₂
    exact h.marked x hx hx₁ (by omega)
  · have hx₁ : p ≤ x := hx₁
    exact h.marked x hx (by omega) hx₂

theorem merge (h1 : Marks T s1) (h2 : Marks T s2) (hu : NSegment.merge s1 s2 = some u)
    (hadj : s1.stop + 1 = s2.start) : Marks T u := by
  obtain ⟨hjoin, rfl⟩ := merge_eq_some.mp hu
  have hkind : s1.kind = s2.kind := by
    simp only [joins, Bool.and_eq_true, decide_eq_true_eq] at hjoin
    exact hjoin.1
  refine ⟨h1.start_page, h2.stop_page, fun hmapped => ?_, fun x hx hx₁ hx₂ => ?_⟩
  · have hmapped : s1.kind.isMapped = false := hmapped
    simp [joined, hmapped, h1.quiet hmapped]
  · by_cases hx' : x ≤ s1.stop
    · simp [joined, h1.marked x hx hx₁ hx']
    · have hT : s2.hasT := h2.marked x hx (by omega) hx₂
      have hmapped : s1.kind.isMapped = true := by
        rw [hkind]
        by_contra hnot
        rw [h2.quiet (by simpa using hnot)] at hT
        exact Bool.false_ne_true hT
      simp [joined, hmapped, hT]

theorem setPerms (h : Marks T s) (prot : ℕ) : Marks T (s.setPerms prot) := by
  rw [NSegment.setPerms]
  split_ifs
  · exact { h with }
  · exact h

theorem toClient (h : Marks T s) : Marks T s.toClient := by
  rw [NSegment.toClient]
  split
  · exact { h with quiet := by rintro ⟨⟩ }
  · exact { h with quiet := by rintro ⟨⟩ }
  · exact h

/-- A segment that is not mapped has no tainted address. -/
theorem not_tainted (h : Marks T s) (hk : s.kind.isMapped = false) (hx : x ∈ T)
    (hlo : s.start ≤ x) (hhi : x ≤ s.stop) : False := by
  have hT := h.marked x hx hlo hhi
  rw [h.quiet hk] at hT
  exact Bool.false_ne_true hT

end Marks

/-! ## What operations do to the marks -/

section Steps

variable {T T' R : Set ℕ} {l l' l₁ l₂ : List NSegment} {lo hi x delta : ℕ}
  {mid : List NSegment → List NSegment}
  {seg s : NSegment} {lim : Limits} {op : Op} {r : Reply} {d : Bool}

/-- A replacement keeps the marks, if the new segments are marked where they must be. -/
theorem Replaces.marks (h : Replaces lo hi mid l l') (hl : ∀ s ∈ l, Marks T s)
    (hT : ∀ x ∈ T', x ∈ T)
    (hmid : ∀ m, Tiles lo m (hi + 1) → (∀ s ∈ m, Marks T s) → ∀ s ∈ mid m, Marks T' s) :
    ∀ s ∈ l', Marks T' s :=
  h.forall_mem (fun _ _ hlo hhi hp hs => hs.split hlo hhi hp) (fun _ _ hs => hs.mono hT) hmid
    (fun _ _ _ hu _ hadj h1 h2 => h1.merge h2 hu hadj) hl

/-- …as is a new segment on a range without tainted addresses. -/
theorem Added.marks (h : Added seg l l') (hl : ∀ s ∈ l, Marks T s) (hT : ∀ x ∈ T', x ∈ T)
    (hquiet : seg.kind.isMapped = false → seg.hasT = false)
    (hclear : ∀ x ∈ T', seg.start ≤ x → x ≤ seg.stop → seg.hasT) : ∀ s ∈ l', Marks T' s :=
  Replaces.marks h hl hT fun _ _ _ =>
    forall_mem_singleton.mpr ⟨h.lo_page, h.hi_page, hquiet, hclear⟩

section

variable (h : Tiles 0 l (2 ^ 64)) (hl : ∀ s ∈ l, Marks T s)
include h hl

/-- The segment of a tainted address is marked. -/
theorem exists_marked (hx : x ∈ T)
    (hlt : x < 2 ^ 64) : ∃ s ∈ l, s.start ≤ x ∧ x ≤ s.stop ∧ s.hasT := by
  obtain ⟨l₁, s, l₂, rfl, -, hlo, hhi, -⟩ := h.exists_piece zero_le hlt
  have hs : s ∈ l₁ ++ s :: l₂ := by simp
  exact ⟨s, hs, hlo, hhi, (hl s hs).marked x hx hlo hhi⟩

/-- A tainted address of a range makes `any_Ts_in_range` answer True. -/
theorem anyTs_of_tainted {start len : ℕ} (hd : anyTsInRange l start len = .ok d) (hx : x ∈ T)
    (hrange : x ∈ Set.Ico start (start + len)) : d = true := by
  obtain ⟨hpos, hfit, hany⟩ := anyTsInRange_ok h hd
  have hlo : start ≤ x := hrange.1
  have hhi : x < start + len := hrange.2
  obtain ⟨s, hs, hs₁, hs₂, hT⟩ := exists_marked h hl hx (by omega)
  exact hany s hs hT (by omega) (by omega)

/-- …also if it is asked for two ranges. -/
theorem anyTs_of_tainted_either
    {start len start' len' : ℕ} (hd : anyTsInRanges l start len start' len' = .ok d)
    (hx : x ∈ T) (hlt : x < 2 ^ 64)
    (hrange : x ∈ Set.Ico start (start + len) ∪ Set.Ico start' (start' + len')) : d = true := by
  obtain ⟨s, hs, hs₁, hs₂, hT⟩ := exists_marked h hl hx hlt
  refine anyTsInRanges_ok h hd s hs hT (hrange.imp (fun hr => ?_) fun hr => ?_)
  · exact ⟨lt_of_le_of_lt hs₁ hr.2, le_trans hr.1 hs₂⟩
  · exact ⟨lt_of_le_of_lt hs₁ hr.2, le_trans hr.1 hs₂⟩

end

/-- After an operation has replaced a range, and asked for a discard if there were marks, no address
of the range is tainted. -/
theorem taint_clear (hd : ∀ x ∈ T, x ∈ R → d = true) : ∀ x ∈ (if d then T \ R else T), x ∉ R := by
  intro x hx hR
  split_ifs at hx with hdis
  · exact hx.2 hR
  · exact hdis (hd x hx hR)

theorem taint_subset : ∀ x ∈ (if d then T \ R else T), x ∈ T := by
  intro x hx
  split_ifs at hx
  · exact hx.1
  · exact hx

/-- An operation that asks for no discard and sets no mark leaves the taint. -/
theorem taint_of_quiet (hquiet : r.needDiscard = false) (hop : ∀ addr, op ≠ .setHasT addr) :
    taint T op r = T := by
  cases op with
  | setHasT addr => exact absurd rfl (hop addr)
  | mmap | shmat | mprotect | munmap | munmapClient | changeOwnership | createReservation
  | extendReservation | extendMap | relocate => simp [taint, hquiet]

theorem taint_failed : taint T op ⟨false, false⟩ = T := by
  cases op <;> simp [taint]

theorem pgroundup_zero : pgroundup 0 = 0 := by decide

/-- The ranges of a relocation do not wrap around. -/
theorem relocate_lt {oldAddr oldLen newAddr newLen : ℕ} {kind : SegKind}
    (hadd₁ : Added (relocated seg oldAddr newAddr newLen) l l₁)
    (hadd₂ : Added { kind := kind, start := oldAddr, stop := oldAddr + oldLen - 1 } l₁ l')
    (hx : x ∈ Set.Ico oldAddr (oldAddr + oldLen) ∪ Set.Ico newAddr (newAddr + newLen)) :
    x < 2 ^ 64 := by
  have h₁ : newAddr + newLen - 1 < 2 ^ 64 := hadd₁.hi_lt
  have h₂ : oldAddr + oldLen - 1 < 2 ^ 64 := hadd₂.hi_lt
  rcases hx with ⟨-, hx⟩ | ⟨-, hx⟩ <;> omega

/-- **An operation on a tainted address asks for a discard.** -/
theorem Change.reports (hc : Change lim l op r l') (h : Tiles 0 l (2 ^ 64))
    (hl : ∀ s ∈ l, Marks T s) (hok : r.success) (hne : (T ∩ op.invalidated).Nonempty) :
    r.needDiscard := by
  obtain ⟨x, hx, hinv⟩ := hne
  cases hc with
  | failed => cases hok
  | mmapAnon _ hd | mmapFile _ hd | shmat hd | munmap hd | munmapClient hd =>
    exact anyTs_of_tainted h hl hd hx hinv
  | mprotect hd =>
    rename_i start len prot d hrep
    rw [Op.invalidated] at hinv
    split_ifs at hinv with hexec
    · exact absurd hinv (notMem_empty x)
    · have hdis := anyTs_of_tainted h hl hd hx hinv
      simp [hdis, hexec]
  | relocate hs hlo hhi hkind hapart hd hold hnew hadd₁ hadd₂ =>
    exact anyTs_of_tainted_either h hl hd hx (relocate_lt hadd₁ hadd₂ hinv) hinv
  | mprotectNone =>
    rename_i start prot
    rw [Op.invalidated] at hinv
    split_ifs at hinv
    · exact absurd hinv (notMem_empty x)
    · exact absurd hinv.2 (not_lt.mpr hinv.1)
  | munmapNone => exact absurd hinv.2 (not_lt.mpr hinv.1)
  | munmapClientNone =>
    have hhi := hinv.2
    rw [pgroundup_zero] at hhi
    exact absurd hhi (not_lt.mpr hinv.1)
  | changeOwnershipNone | changeOwnership | setHasT | createReservation | extendNone
  | extendForwards | extendBackwards | extendMap => exact absurd hinv (notMem_empty x)

/-- A segment put on a replaced range needs no mark. -/
theorem Added.marks_of_clear (h : Added seg l l')
    (hl : ∀ s ∈ l, Marks T s) (hd : ∀ x ∈ T, x ∈ R → d = true)
    (hquiet : seg.kind.isMapped = false → seg.hasT = false)
    (hR : ∀ x, seg.start ≤ x → x ≤ seg.stop → x ∈ R) :
    ∀ s ∈ l', Marks (if d then T \ R else T) s :=
  Added.marks h hl taint_subset hquiet fun x hx h₁ h₂ =>
    absurd (hR x h₁ h₂) (taint_clear hd x hx)

/-- Marking the segment of an address marks that of its page. -/
theorem marks_setHasT {addr : ℕ}
    (h : Tiles 0 (l₁ ++ s :: l₂) (2 ^ 64)) (hl : ∀ s' ∈ l₁ ++ s :: l₂, Marks T s')
    (hlo : s.start ≤ addr) (hhi : addr ≤ s.stop) (hkind : s.kind.isClient) :
    ∀ s' ∈ l₁ ++ { s with hasT := true } :: l₂,
      Marks (T ∪ { x | x / pageSize = addr / pageSize }) s' := by
  have hs := hl s (by simp)
  have hout : ∀ s' ∈ l₁ ++ s :: l₂, s'.stop < s.start ∨ s.stop < s'.start →
      Marks (T ∪ { x | x / pageSize = addr / pageSize }) s' := by
    intro s' hs' hapart
    have hm := hl s' hs'
    refine { hm with marked := fun x hx h₁ h₂ => ?_ }
    rcases hx with hx | hx
    · exact hm.marked x hx h₁ h₂
    · have hpage : x / pageSize = addr / pageSize := hx
      have h₃ := hs.start_page
      have h₄ := hs.stop_page
      have h₅ := hm.start_page
      have h₆ := hm.stop_page
      rw [pageSize] at hpage h₃ h₄ h₅ h₆
      omega
  obtain ⟨p, hl₁, hp, -, hl₂⟩ := tiles_append.mp h
  refine forall_mem_append.mpr ⟨fun s' hs' => hout s' (by simp [hs']) (.inl ?_),
    forall_mem_cons.mpr ⟨⟨hs.start_page, hs.stop_page, ?_, fun _ _ _ _ => rfl⟩,
      fun s' hs' => hout s' (by simp [hs']) (.inr ?_)⟩⟩
  · have hb := (hl₁.bounds s' hs').2.2
    rw [← hp] at hb
    exact hb
  · intro hmapped
    have hmapped : s.kind.isMapped = false := hmapped
    cases hk : s.kind <;> simp_all [isClient, isMapped]
  · exact (hl₂.bounds s' hs').1

/-- A segment that grows into one that is not mapped meets no tainted address. -/
theorem Marks.hasT_of_mem {r : NSegment} (h : Marks T s) (hr : Marks T r)
    (hk : r.kind.isMapped = false) (hx : x ∈ T)
    (hin : s.start ≤ x ∧ x ≤ s.stop ∨ r.start ≤ x ∧ x ≤ r.stop) : s.hasT :=
  hin.elim (fun hin => h.marked x hx hin.1 hin.2) fun hin =>
    (hr.not_tainted hk hx hin.1 hin.2).elim

/-- A boundary moved into unmapped addresses keeps the marks. -/
theorem marks_resize {r : NSegment} {b c : ℕ}
    (h : Tiles 0 (l₁ ++ s :: r :: l₂) (2 ^ 64)) (hl : ∀ s' ∈ l₁ ++ s :: r :: l₂, Marks T s')
    (hb : (b + 1) % pageSize = 0) (hc : c = b + 1)
    (hfwd : s.stop < b → r.kind.isMapped = false ∧ b ≤ r.stop)
    (hbwd : b < s.stop → s.kind.isMapped = false ∧ s.start ≤ c) :
    ∀ s' ∈ l₁ ++ { s with stop := b } :: { r with start := c } :: l₂, Marks T s' := by
  simp only [forall_mem_append, forall_mem_cons] at hl ⊢
  obtain ⟨hl₁, hs, hr, hl₂⟩ := hl
  obtain ⟨-, hadj, -⟩ := neighbours h
  refine ⟨hl₁, ⟨hs.start_page, hb, hs.quiet, fun x hx h₁ h₂ => ?_⟩,
    ⟨hc ▸ hb, hr.stop_page, hr.quiet, fun x hx h₁ h₂ => ?_⟩, hl₂⟩
  · dsimp only at h₁ h₂
    rcases lt_or_ge s.stop b with hlt | hge
    · obtain ⟨hk, hle⟩ := hfwd hlt
      exact hs.hasT_of_mem hr hk hx (by omega)
    · exact hs.marked x hx h₁ (h₂.trans hge)
  · dsimp only at h₁ h₂
    rcases lt_or_ge b s.stop with hlt | hge
    · obtain ⟨hk, hle⟩ := hbwd hlt
      exact hr.hasT_of_mem hs hk hx (by omega)
    · exact hr.marked x hx (by omega) h₂

/-- **Every operation keeps the marks.** -/
theorem Change.marks (hc : Change lim l op r l') (h : Tiles 0 l (2 ^ 64))
    (hl : ∀ s ∈ l, Marks T s) : ∀ s ∈ l', Marks (taint T op r) s := by
  cases hc with
  | failed => rwa [taint_failed]
  | mprotectNone | munmapNone | munmapClientNone | changeOwnershipNone | extendNone =>
    rwa [taint_of_quiet rfl (by rintro _ ⟨⟩)]
  | mmapAnon _ hd hadd | mmapFile _ hd hadd | shmat hd hadd =>
    have hpos := (anyTsInRange_ok h hd).1
    refine hadd.marks_of_clear hl (fun x hx hr => anyTs_of_tainted h hl hd hx hr) nofun
      fun x h₁ h₂ => ⟨h₁, ?_⟩
    exact lt_of_le_of_lt h₂ (by simp only [plainSegment, fileSegment]; omega)
  | munmap hd hadd | munmapClient hd hadd =>
    have hpos := (anyTsInRange_ok h hd).1
    refine hadd.marks_of_clear hl (fun x hx hr => anyTs_of_tainted h hl hd hx hr) (fun _ => rfl)
      fun x h₁ h₂ => ⟨h₁, ?_⟩
    exact lt_of_le_of_lt h₂ (by dsimp only; omega)
  | mprotect hd hrep =>
    refine hrep.marks hl taint_subset fun m _ hm s hs => ?_
    obtain ⟨s', hs', rfl⟩ := mem_map.mp hs
    exact ((hm s' hs').mono taint_subset).setPerms _
  | changeOwnership hpos hs hlo hhi hkind hrep =>
    rw [taint_of_quiet rfl (by rintro _ ⟨⟩)]
    refine hrep.marks hl (fun _ => id) fun m _ hm s hs => ?_
    obtain ⟨s', hs', rfl⟩ := mem_map.mp hs
    exact (hm s' hs').toClient
  | setHasT hl' hlo hhi hkind => exact marks_setHasT (hl' ▸ h) (hl' ▸ hl) hlo hhi hkind
  | createReservation hs hkind hlo hhi hadd =>
    rw [taint_of_quiet rfl (by rintro _ ⟨⟩)]
    refine hadd.marks hl (fun _ => id) (fun _ => rfl) fun x hx h₁ h₂ => ?_
    have h₁ := hlo.trans h₁
    have h₂ := le_trans h₂ hhi
    exact ((hl _ hs).not_tainted (by rw [hkind]; rfl) hx h₁ h₂).elim
  | @extendForwards _ _ _ l₁ sA sR l₂ hl' hlo hhi hA hR hpos hpage hfit =>
    rw [taint_of_quiet rfl (by rintro _ ⟨⟩)]
    subst hl'
    obtain ⟨-, hadj, -⟩ := neighbours h
    have hstop := (hl sA (by simp)).stop_page
    rw [pageSize] at *
    exact marks_resize h hl (by rw [pageSize]; omega) (by omega)
      (fun _ => ⟨by rw [hR]; rfl, by omega⟩) (by omega)
  | @extendBackwards _ _ _ l₁ sA sR l₂ hl' hlo hhi hA hR hneg hpage hfit =>
    rw [taint_of_quiet rfl (by rintro _ ⟨⟩)]
    subst hl'
    obtain ⟨-, hadj, -⟩ := neighbours h
    have hstop := (hl sR (by simp)).stop_page
    rw [pageSize] at *
    exact marks_resize h hl (by rw [pageSize]; omega) (by omega) (by omega)
      fun _ => ⟨by rw [hR]; rfl, by omega⟩
  | extendMap hl' hlo hhi hkind hfree hpos hfit hadd =>
    rw [taint_of_quiet rfl (by rintro _ ⟨⟩)]
    rename_i addr delta sres seg segf l₁ l₂
    subst hl'
    obtain ⟨-, hadj, -⟩ := neighbours h
    have hseg : Marks T seg := hl seg (by simp)
    have hsegf : Marks T segf := hl segf (by simp)
    refine hadd.marks hl (fun _ => id) hseg.quiet fun x hx h₁ h₂ =>
      hseg.hasT_of_mem hsegf (by rw [hfree]; rfl) hx ?_
    dsimp only at h₁ h₂
    omega
  | relocate hs hlo hhi hkind hapart hd hold hnew hadd₁ hadd₂ =>
    rename_i oldAddr oldLen newAddr newLen sres seg d l₁
    have hdis : ∀ x ∈ T, x ∈ Set.Ico oldAddr (oldAddr + oldLen)
        ∪ Set.Ico newAddr (newAddr + newLen) → d = true := fun x hx hr =>
      anyTs_of_tainted_either h hl hd hx (relocate_lt hadd₁ hadd₂ hr) hr
    have hl₁ := hadd₁.marks_of_clear hl hdis (hl seg hs).quiet fun x h₁ h₂ =>
      .inr ⟨h₁, lt_of_le_of_lt h₂ (show newAddr + newLen - 1 < newAddr + newLen by omega)⟩
    refine hadd₂.marks hl₁ (fun _ => id) (fun _ => rfl) fun x hx h₁ h₂ => ?_
    refine absurd (.inl ⟨h₁, lt_of_le_of_lt h₂ ?_⟩) (taint_clear hdis x hx)
    dsimp only
    omega

end Steps

/-! ## Runs -/

/-- No request is missed along a run from any tainted addresses whose segments are marked. -/
theorem neverMissed_run {lim : Limits} {st st' : Aspacem} {ops : List Op} {rs : List Reply}
    {T : Set ℕ} (h : Tiles 0 st.segs (2 ^ 64)) (hl : ∀ s ∈ st.segs, Marks T s)
    (hrun : Refinement.run (Aspacem.step lim) st ops = .ok (rs, st')) : NeverMissed T ops rs := by
  induction ops generalizing st T rs with
  | nil =>
    cases hrun
    trivial
  | cons op ops ih =>
    obtain ⟨r, rs, st₁, rfl, hstep, hrun⟩ := Refinement.exists_of_run_cons hrun
    have hc := step_change h hstep
    exact ⟨hc.reports h hl, ih (hc.tiles h) (hc.marks h hl) hrun⟩

/-- **Translation-discard requests are never missed**: in every run from a sane array that covers
the address space once, an operation that succeeds and replaces a range with a tainted page, or
takes the permission to execute from one, asks for a discard. -/
theorem discards_never_missed {lim : Limits} {st st' : Aspacem} {ops : List Op} {rs : List Reply}
    (h : Tiles 0 st.segs (2 ^ 64)) (hsane : ∀ s ∈ st.segs, saneNSegment st.names s)
    (hrun : Refinement.run (Aspacem.step lim) st ops = .ok (rs, st')) : NeverMissed ∅ ops rs :=
  neverMissed_run h (fun s hs => .of_sane (hsane s hs)) hrun

/-- A page is mapped, translated and unmapped; the last operation asks for a discard. -/
theorem discards_never_missed_munmap :
    Refinement.run (Aspacem.step ⟨0x1000, 2 ^ 47 - 1⟩) unmapped
        [.mmap 0x10000 0x1000 5 0x22 0 ⟨none, none⟩, .setHasT 0x10000, .munmap 0x10000 0x1000]
      = .ok ([⟨true, false⟩, ⟨true, false⟩, ⟨true, true⟩], unmapped)
    ∧ NeverMissed ∅
        [.mmap 0x10000 0x1000 5 0x22 0 ⟨none, none⟩, .setHasT 0x10000, .munmap 0x10000 0x1000]
        [⟨true, false⟩, ⟨true, false⟩, ⟨true, true⟩] := by
  refine (and_iff_left_of_imp fun hrun => ?_).mpr (by decide +kernel)
  exact discards_never_missed tiles_unmapped sane_unmapped hrun

end Valgrind.Aspacemgr
