import Valgrind.Aspacemgr.SegmentArray

/-!
# Aspacemgr/NameCounts — when updating the segment array returns

Splitting a segment, replacing segments and merging two all move the counts of segment names.
Merging gives up the reference of the *first* of two file segments, and drops the second: that is
the same only if both have one name.

**It returns** (`addSegment_returns`, `preenNsegments_returns`): if the counts cover the references,
segments of one file have one name, and there is room, then no update aborts, and this is so again
afterwards.
-/

namespace Valgrind.Aspacemgr

open NSegment Tiling List Aspacem Segnames

/-- How often the segments refer to each name. -/
def refsOf (l : List NSegment) : ℕ → ℕ := (l.map fun s => refs s.fnIdx).sum

/-- Segments of one file have one name: the file decides it. -/
def Agree (g : ℕ → ℕ → Option ℕ) (s : NSegment) : Prop := s.kind.isFile → s.fnIdx = g s.dev s.ino

/-- The names of the segments are counted, and segments of one file have one name. -/
structure NamesOk (g : ℕ → ℕ → Option ℕ) (l : List NSegment) (t : Segnames) : Prop where
  wf : t.Wf
  backs : t.Backs (refsOf l)
  agree : ∀ s ∈ l, Agree g s

/-- The array covers the address space once, its segments are sane, and their names are counted. -/
structure Valid (g : ℕ → ℕ → Option ℕ) (st : Aspacem) : Prop where
  tiles : Tiles 0 st.segs (2 ^ 64)
  sane : ∀ s ∈ st.segs, saneNSegment st.names s
  names : NamesOk g st.segs st.names

section

variable {l l₁ l₂ m r : List NSegment} {s seg : NSegment} {t t' : Segnames} {st st' : Aspacem}
  {g : ℕ → ℕ → Option ℕ} {c : ℕ → ℕ} {a b p lo hi : ℕ}

@[simp] theorem refsOf_nil : refsOf [] = 0 := rfl

@[simp] theorem refsOf_cons (s : NSegment) (l : List NSegment) :
    refsOf (s :: l) = refs s.fnIdx + refsOf l := by
  rw [refsOf, map_cons, sum_cons, refsOf]

@[simp] theorem refsOf_append (l r : List NSegment) : refsOf (l ++ r) = refsOf l + refsOf r := by
  rw [refsOf, map_append, sum_append, refsOf, refsOf]

/-- The name of a segment is not on the chain of free slots. -/
theorem NamesOk.live (h : NamesOk g l t) (hs : s ∈ l) {k : ℕ} (hk : s.fnIdx = some k) :
    (t.refcountOf k).isSome := by
  obtain ⟨l₁, l₂, rfl⟩ := append_of_mem hs
  have hpos : 0 < refsOf (l₁ ++ s :: l₂) k := by
    simp [hk, refs]
  obtain ⟨r, hr, -⟩ := h.backs k hpos
  rw [hr]
  rfl

/-! ## Splitting -/

theorem agree_split (h : Agree g s) (p : ℕ) : Agree g (s.split p).1 ∧ Agree g (s.split p).2 :=
  ⟨h, h⟩

theorem sane_mono (hsane : ∀ s ∈ l, saneNSegment t s) (hused : t'.used = t.used) :
    ∀ s ∈ l, saneNSegment t' s := fun s hs => saneNSegment_mono (hsane s hs) hused.ge

section Splits

variable (h : Valid g ⟨l, t⟩)
include h

/-- Cutting keeps an array valid, if a name that is used once more is counted once more. -/
theorem Valid.cut (hpage : p % pageSize = 0) (hwf : t'.Wf) (hkeeps : t.Keeps t')
    (hback : t'.Backs (refsOf (cut split p l))) : Valid g ⟨cut split p l, t'⟩ where
  tiles := isSplit.tiles h.tiles zero_le
  sane := sane_mono (forall_mem_cut (fun _ hlo hhi hs => saneNSegment_split hs hlo hhi hpage)
    h.sane) hkeeps.used
  names := ⟨hwf, hback, forall_mem_cut (fun _ _ _ hs => agree_split hs p) h.names.agree⟩

theorem splitNsegmentAt_returns (hpos : 0 < p) (hp : p < 2 ^ 64) (hpage : p % pageSize = 0)
    (hroom : l.length < nSegments) :
    ∃ t', Aspacem.splitNsegmentAt ⟨l, t⟩ p = .ok ⟨cut split p l, t'⟩
      ∧ Valid g ⟨cut split p l, t'⟩ ∧ t.Keeps t' := by
  obtain ⟨l₁, s, l₂, rfl, -, hlo, hhi, -⟩ := h.tiles.exists_piece zero_le hp
  rcases eq_or_lt_of_le hlo with hs | hlt
  · have heq := splitNsegmentAt_start h.tiles hs (hlo.trans hhi) hpos hpage t
    exact ⟨t, heq, (cut_start h.tiles hs).symm ▸ h, .refl t⟩
  · have hmem : s ∈ l₁ ++ s :: l₂ := mem_append_right _ (mem_cons_self ..)
    obtain ⟨t', hinc, hwf, hkeeps, hback⟩ :=
      amIncRefcount_backs h.names.wf (fun k hk => h.names.live hmem hk) h.names.backs
    obtain ⟨hsane₁, hsane₂⟩ := saneNSegment_split (h.sane s hmem) hlt hhi hpage
    refine ⟨t', ?_, h.cut hpage hwf hkeeps ?_, hkeeps⟩
    · rw [splitNsegmentAt_inside h.tiles hlt hhi hpage, if_neg (by omega), hinc, ok_bind,
        vgAssert_bind (saneNSegment_mono hsane₁ hkeeps.used.ge),
        vgAssert_bind (saneNSegment_mono hsane₂ hkeeps.used.ge), pure_eq_ok]
    · have hrefs : refsOf (cut split p (l₁ ++ s :: l₂))
          = refsOf (l₁ ++ s :: l₂) + refs s.fnIdx := by
        rw [cut_inside h.tiles hlt hhi]
        simp only [refsOf_append, refsOf_cons, split]
        abel
      rwa [hrefs]

theorem splitLo_returns (hlo : lo < 2 ^ 64) (hpage : lo % pageSize = 0)
    (hroom : l.length < nSegments) :
    ∃ t', Aspacem.splitLo ⟨l, t⟩ lo = .ok ⟨cut split lo l, t'⟩
      ∧ Valid g ⟨cut split lo l, t'⟩ ∧ t.Keeps t' := by
  rw [splitLo]
  split_ifs with hpos
  · exact splitNsegmentAt_returns h hpos hlo hpage hroom
  · obtain rfl : lo = 0 := Nat.eq_zero_of_not_pos hpos
    rw [cut_of_tiles h.tiles]
    exact ⟨t, rfl, h, .refl t⟩

theorem splitHi_returns (hhi : hi < 2 ^ 64) (hpage : (hi + 1) % pageSize = 0)
    (hroom : l.length < nSegments) :
    ∃ t', Aspacem.splitHi ⟨l, t⟩ hi = .ok ⟨cut split (hi + 1) l, t'⟩
      ∧ Valid g ⟨cut split (hi + 1) l, t'⟩ ∧ t.Keeps t' := by
  rw [splitHi]
  rcases lt_or_ge (hi + 1) (2 ^ 64) with hlt | hge
  · rw [if_pos (by rw [Nat.mod_eq_of_lt hlt]; exact Nat.lt_succ_self hi)]
    exact splitNsegmentAt_returns h (Nat.succ_pos hi) hlt hpage hroom
  · have heq : hi + 1 = 2 ^ 64 := le_antisymm hhi hge
    rw [if_neg (by rw [heq, Nat.mod_self]; exact Nat.not_lt_zero _), cut_of_le h.tiles hge]
    exact ⟨t, rfl, h, .refl t⟩

theorem splitNsegmentsLoAndHi_returns (hlt : lo < hi) (hhi : hi < 2 ^ 64)
    (hpLo : lo % pageSize = 0) (hpHi : (hi + 1) % pageSize = 0)
    (hroom : l.length + 2 ≤ nSegments) :
    ∃ t' iLo iHi, Aspacem.splitNsegmentsLoAndHi ⟨l, t⟩ lo hi = .ok (⟨carve lo hi l, t'⟩, iLo, iHi)
      ∧ Valid g ⟨carve lo hi l, t'⟩ ∧ t.Keeps t' := by
  obtain ⟨t₁, hsplit₁, hv₁, hkeeps₁⟩ := splitLo_returns h (by omega) hpLo (by omega)
  have hlen := length_cut_le split lo l
  obtain ⟨t₂, hsplit₂, hv₂, hkeeps₂⟩ := splitHi_returns hv₁ hhi hpHi (by omega)
  obtain ⟨l₁, m, l₂, hcarve, ht₁, htm, ht₂⟩ := carve_spec h.tiles hlt.le hhi
  obtain ⟨iHi, -, -, -, heq⟩ := loAndHi_eq (ht₁.append (htm.append ht₂)) htm hlt.le t₂
  rw [← hcarve] at heq
  refine ⟨t₂, l₁.length, iHi, ?_, hv₂, hkeeps₁.trans hkeeps₂⟩
  rw [splitNsegmentsLoAndHi, vgAssert_bind hlt, vgAssert_bind hpLo, vgAssert_bind hpHi,
    hsplit₁, ok_bind, hsplit₂, ok_bind]
  exact heq

end Splits

/-! ## Merging -/

/-- **Merging two segments of one name keeps the counts.** -/
theorem mergeNames_returns {s1 s2 : NSegment} (hwf : t.Wf) (hjoin : joins s1 s2)
    (h1 : Agree g s1) (h2 : Agree g s2)
    (hback : t.Backs (c + (refs s1.fnIdx + refs s2.fnIdx))) :
    ∃ t', mergeNames t s1 = .ok t' ∧ t'.Wf ∧ t'.used = t.used
      ∧ t'.Backs (c + refs s1.fnIdx) := by
  rw [mergeNames]
  split_ifs with hfile
  · simp only [joins, Bool.and_eq_true, decide_eq_true_eq] at hjoin
    obtain ⟨hkind, hjoin⟩ := hjoin
    have hsame : s1.dev = s2.dev ∧ s1.ino = s2.ino := by
      cases hk : s1.kind with
      | fileC | fileV =>
        simp only [hk, Bool.and_eq_true, decide_eq_true_eq] at hjoin
        exact ⟨hjoin.1.1.1.2, hjoin.1.1.2⟩
      | free | anonC | anonV | shmC | resvn => simp [hk, SegKind.isFile] at hfile
    have hname : s1.fnIdx = s2.fnIdx := by
      rw [h1 hfile, h2 (hkind ▸ hfile), hsame.1, hsame.2]
    rw [hname] at hback ⊢
    rw [← add_assoc] at hback
    exact amDecRefcount_backs hwf hback
  · refine ⟨t, rfl, hwf, rfl, hback.mono fun k => ?_⟩
    simp only [Pi.add_apply]
    omega

theorem agree_joined {s1 s2 u : NSegment} (hu : merge s1 s2 = some u) (h1 : Agree g s1) :
    Agree g u := by
  obtain ⟨-, rfl⟩ := merge_eq_some.mp hu
  exact h1

theorem preenMerge_returns (h : Tiles a (s :: l) b) (hb : b ≤ 2 ^ 64) (hwf : t.Wf)
    (hagree : ∀ s' ∈ s :: l, Agree g s') (hback : t.Backs (c + refsOf (s :: l))) :
    ∃ t', preenMerge t s l = .ok (coalesce merge (s :: l), t') ∧ t'.Wf ∧ t'.used = t.used
      ∧ t'.Backs (c + refsOf (coalesce merge (s :: l))) := by
  induction l generalizing a s t c with
  | nil => exact ⟨t, by rw [preenMerge, coalesce], hwf, rfl, by rwa [coalesce]⟩
  | cons r l ih =>
    obtain ⟨htail, hjoined, heq⟩ := preenMerge_cons h hb t
    obtain ⟨has, har, hal⟩ :=
      (forall_mem_cons.trans (and_congr_right' forall_mem_cons)).mp hagree
    rw [heq, coalesce]
    cases hm : merge s r with
    | none =>
      have hback' : t.Backs ((c + refs s.fnIdx) + refsOf (r :: l)) := by
        rwa [add_assoc, ← refsOf_cons]
      obtain ⟨t', hok, hwf', hused, hback'⟩ :=
        ih htail hwf (forall_mem_cons.mpr ⟨har, hal⟩) hback'
      refine ⟨t', ?_, hwf', hused, ?_⟩
      · dsimp only
        rw [hok, ok_bind, pure_eq_ok]
      · rwa [refsOf_cons, ← add_assoc]
    | some u =>
      have hu := merge_eq_some.mp hm
      have hback' : t.Backs ((c + refsOf l)
          + (refs s.fnIdx + refs r.fnIdx)) := by
        refine hback.mono fun k => ?_
        simp only [refsOf_cons, Pi.add_apply]
        omega
      obtain ⟨t₁, hnames, hwf₁, hused₁, hback₁⟩ := mergeNames_returns hwf hu.1 has har hback'
      have hau := agree_joined hm has
      obtain ⟨-, rfl⟩ := hu
      have hback₂ : t₁.Backs (c + refsOf (joined s r :: l)) := by
        refine hback₁.mono fun k => ?_
        simp only [refsOf_cons, Pi.add_apply, joined]
        omega
      obtain ⟨t', hok, hwf', hused, hback'⟩ :=
        ih hjoined hwf₁ (forall_mem_cons.mpr ⟨hau, hal⟩) hback₂
      refine ⟨t', ?_, hwf', hused.trans hused₁, hback'⟩
      rw [hnames]
      exact hok

theorem Valid.covers (h : Valid g st) : st.covers := by
  obtain ⟨s, r, hl, hs, -⟩ := h.tiles.exists_head (by norm_num)
  obtain ⟨r', s', hl', -, hs'⟩ := h.tiles.exists_last (by norm_num)
  have hchain : st.segs.IsChain fun s1 s2 => (s1.stop + 1) % 2 ^ 64 = s2.start := by
    refine isChain_iff_forall_rel_of_append_cons_cons.mpr fun s1 s2 _ _ heq => ?_
    obtain ⟨-, hadj, hle, hlast⟩ := (heq ▸ h.tiles).neighbours
    rw [show s1.stop + 1 = s2.start from hadj]
    exact Nat.mod_eq_of_lt (hle.trans_lt hlast)
  simp only [Aspacem.covers, Bool.and_eq_true, decide_eq_true_eq, all_eq_true]
  refine ⟨⟨⟨?_, ?_⟩, h.sane⟩, hchain⟩
  · rw [hl, head?_cons]
    exact decide_eq_true hs
  · rw [hl', getLast?_append]
    have hstop : s'.stop + 1 = 2 ^ 64 := hs'
    simp
    omega

/-- **`preen_nsegments` returns.** -/
theorem preenNsegments_returns (h : Valid g st) :
    ∃ st', st.preenNsegments = .ok st' ∧ Valid g st' := by
  obtain ⟨segs, names⟩ := st
  obtain ⟨s, l, rfl, -⟩ := h.tiles.exists_head (by norm_num)
  obtain ⟨t', hok, hwf, hused, hback⟩ := preenMerge_returns (c := 0) h.tiles le_rfl h.names.wf
    h.names.agree (by rw [zero_add]; exact h.names.backs)
  rw [zero_add] at hback
  refine ⟨⟨coalesce merge (s :: l), t'⟩, ?_, ⟨isMerge.tiles_coalesce h.tiles, ?_, hwf, hback, ?_⟩⟩
  · rw [preenNsegments, vgAssert_bind h.covers]
    dsimp only
    rw [hok, ok_bind, pure_eq_ok]
  · refine sane_mono (forall_mem_coalesce isMerge (fun s1 s2 u hu _ hadj h1 h2 => ?_) h.tiles
      h.sane) hused
    obtain ⟨-, rfl⟩ := merge_eq_some.mp hu
    exact saneNSegment_joined h1 h2 hadj
  · exact forall_mem_coalesce isMerge (fun _ _ _ hu _ _ h1 _ => agree_joined hu h1) h.tiles
      h.names.agree

/-! ## Replacing -/

theorem decRefcounts_returns (hwf : t.Wf) (hback : t.Backs (c + refsOf m)) :
    ∃ t', decRefcounts t m = .ok t' ∧ t'.Wf ∧ t'.used = t.used ∧ t'.Backs c := by
  induction m generalizing t with
  | nil => exact ⟨t, rfl, hwf, rfl, by rwa [refsOf_nil, add_zero] at hback⟩
  | cons s m ih =>
    have hback' : t.Backs ((c + refsOf m) + refs s.fnIdx) := by
      rw [refsOf_cons] at hback
      rwa [add_assoc, add_comm (refsOf m)]
    obtain ⟨t₁, hdec, hwf₁, hused₁, hback₁⟩ := amDecRefcount_backs hwf hback'
    obtain ⟨t', hok, hwf', hused', hback'⟩ := ih hwf₁ hback₁
    exact ⟨t', by rw [decRefcounts, hdec, ok_bind, hok], hwf', hused'.trans hused₁, hback'⟩

/-- The segments of a range may be replaced by one that is sane and agrees. -/
theorem forall_mem_replace {P : NSegment → Prop} (h : ∀ s ∈ l₁ ++ (m ++ l₂), P s) (hseg : P seg) :
    ∀ s ∈ l₁ ++ seg :: l₂, P s := by
  obtain ⟨h₁, h₂⟩ := forall_mem_append.mp h
  exact forall_mem_append.mpr
    ⟨h₁, forall_mem_cons.mpr ⟨hseg, (forall_mem_append.mp h₂).2⟩⟩

/-- **`add_segment` returns**, if the new segment is sane, has a name that is not free, and agrees
with the other segments of its file. -/
theorem addSegment_returns (h : Valid g st) (hhi : seg.stop < 2 ^ 64)
    (hroom : st.segs.length + 2 ≤ nSegments) (hseg : saneNSegment st.names seg)
    (hagree : Agree g seg) (hlive : ∀ k, seg.fnIdx = some k → (st.names.refcountOf k).isSome) :
    ∃ st', st.addSegment seg = .ok st' ∧ Valid g st' := by
  obtain ⟨hle, hpLo, hpHi, -⟩ := saneNSegment_iff.mp hseg
  have hlt : seg.start < seg.stop := by
    rw [pageSize] at hpLo hpHi
    omega
  obtain ⟨t₁, iLo, iHi, hsplit, hv₁, hkeeps⟩ :=
    splitNsegmentsLoAndHi_returns h hlt hhi hpLo hpHi hroom
  obtain ⟨-, -, -, -, l₁, m, l₂, hcarve, -, ht₁, htm, ht₂, rfl, hiHi, -⟩ :=
    splitNsegmentsLoAndHi_segs h.tiles hsplit
  rw [hcarve] at hsplit hv₁
  obtain ⟨t₂, hinc, hwf₂, hkeeps₂, hback₂⟩ := amIncRefcount_backs hv₁.names.wf
    (fun k hk => hkeeps.live k (hlive k hk)) hv₁.names.backs
  have hback : t₂.Backs (refsOf (l₁ ++ seg :: l₂) + refsOf m) := by
    refine hback₂.mono fun k => ?_
    simp only [refsOf_append, refsOf_cons, Pi.add_apply]
    omega
  obtain ⟨t₃, hdec, hwf₃, hused₃, hback₃⟩ := decRefcounts_returns hwf₂ hback
  have hseg' : saneNSegment t₁ seg := saneNSegment_mono hseg hkeeps.used.ge
  have hvalid : Valid g ⟨l₁ ++ seg :: l₂, t₃⟩ :=
    ⟨ht₁.append ⟨rfl, hle, ht₂⟩,
      sane_mono (forall_mem_replace hv₁.sane hseg') (hused₃.trans hkeeps₂.used),
      ⟨hwf₃, hback₃, forall_mem_replace hv₁.names.agree hagree⟩⟩
  obtain ⟨st', hpreen, hvalid'⟩ := preenNsegments_returns hvalid
  refine ⟨st', ?_, hvalid'⟩
  rw [addSegment, vgAssert_bind hle, vgAssert_bind hpLo, vgAssert_bind hpHi,
    vgAssert_bind hseg, hsplit, ok_bind]
  dsimp only
  rw [hinc, ok_bind, slice_append _ _ _ hiHi, hdec, ok_bind, take_left,
    drop_append_length hiHi, hpreen]

end

end Valgrind.Aspacemgr
