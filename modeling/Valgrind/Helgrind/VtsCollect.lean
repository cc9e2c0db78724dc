import Valgrind.Helgrind.VtsIDs

/-!
# Helgrind/VtsCollect — identifiers stay canonical through collections and renamings

`vts_tab__do_GC` frees the slots that no place refers to (`collect_spec`); if it prunes, it builds a
second table of the timestamps without the threads that are very dead, and reads every place through
one renaming (`prune_spec`).  With the specifications of the other operations this gives
`vtsIDs_canonical`: whatever is done, identifiers stand for timestamps, one for each.

The table can outgrow its identifiers: `overflow_renames`.
-/

namespace Valgrind.Helgrind

open Interning Refinement VtsTab List Function Nat Option Except Prod WordFM

/-! ## Reference counts -/

/-- The places after a change. -/
def RcChange.act : RcChange → List VtsID → List VtsID
  | .inc ii, places => ii :: places
  | .dec ii, places => places.erase ii

namespace VtsIDs

variable {s s' : VtsIDs}

/-- No entry of a cache can be found. -/
def Cleared (s : VtsIDs) : Prop :=
  (∀ h, (s.cmpLEQCache h).vi1 = (s.cmpLEQCache h).vi2)
    ∧ ∀ h, (s.join2Cache h).vi1 = (s.join2Cache h).vi2

/-- What a change of counts leaves alone. -/
structure Counts (s s' : VtsIDs) : Prop where
  names : s'.names = s.names
  dead : s'.verydeadNotPruned = s.verydeadNotPruned
  cleared : s.Cleared → s'.Cleared

/-- The counts are changed with the places. -/
theorem Inv.recount (h : s.Inv) {t' : VtsTab} (ht' : t'.Table)
    (hvts : vtsAt t'.tab = vtsAt s.table.tab) (hlen : t'.tab.length = s.table.tab.length)
    {places : List VtsID} (hrc : ∀ i, rcAt t'.tab i = places.count i)
    (hplaced : ∀ i ∈ places, vtsAt s.table.tab i ≠ none) (hfits : places.length < 2 ^ 64) :
    ({ s with table := t', places } : VtsIDs).Inv
      ∧ Counts s { s with table := t', places } := by
  have hnames : t'.denotes = s.names := by
    rw [denotes, hvts]
    rfl
  have hkeeps : Keeps s.names t'.denotes := fun i c hc => hnames ▸ hc
  refine ⟨⟨ht', hlen.trans_le h.size, hrc, fun i hi => ?_, hfits, fun k => (h.leq k).mono hkeeps,
    fun k => (h.join k).mono hkeeps⟩, hnames, rfl, id⟩
  obtain ⟨p, hp⟩ := ne_none_iff_exists'.mp (hplaced i hi)
  exact ⟨p.ts, hkeeps (denotes_eq_some.mpr ⟨p, hp, rfl⟩)⟩

/-- Places hold identifiers of entries in use. -/
theorem Inv.vtsAt_ne_none (h : s.Inv) {i : VtsID} (hi : i ∈ s.places) :
    vtsAt s.table.tab i ≠ none := by
  obtain ⟨c, hc⟩ := h.placed i hi
  obtain ⟨p, hp, -⟩ := denotes_eq_some.mp hc
  rw [hp]
  exact nofun

theorem rcChange_spec (h : s.Inv) {ch : RcChange} (hrun : s.rcChange ch = .ok s')
    (hfits : s.places.length + 1 < 2 ^ 64) :
    s'.Inv ∧ s'.places = ch.act s.places ∧ Counts s s' := by
  cases ch with
  | inc ii =>
    obtain ⟨t', hinc, hrun⟩ := bind_eq_ok.mp hrun
    cases hrun
    obtain ⟨ht', hvts, hrc, hlen, huse⟩ := rcinc_spec h.table hinc
    have hcount : ∀ i, rcAt t'.tab i = (ii :: s.places).count i := fun i => by
      rw [hrc, update_apply, count_cons, h.rc_eq, h.rc_eq]
      by_cases hi : i = ii
      · simp [hi]
      · simp [hi, Ne.symm hi]
    obtain ⟨hinv, hcounts⟩ := h.recount ht' hvts hlen hcount
      (forall_mem_cons.mpr ⟨huse, fun i => h.vtsAt_ne_none⟩) hfits
    exact ⟨hinv, rfl, hcounts⟩
  | dec ii =>
    obtain ⟨t', hdec, hrun⟩ := bind_eq_ok.mp hrun
    cases hrun
    obtain ⟨ht', hvts, hrc, hlen, hpos⟩ := rcdec_spec h.table hdec
    have hcount : ∀ i, rcAt t'.tab i = (s.places.erase ii).count i := fun i => by
      rw [hrc, update_apply, count_erase, h.rc_eq, h.rc_eq]
      by_cases hi : i = ii
      · simp [hi]
      · simp [hi, Ne.symm hi]
    obtain ⟨hinv, hcounts⟩ := h.recount ht' hvts hlen hcount
      (fun i hi => h.vtsAt_ne_none (mem_of_mem_erase hi))
      (length_erase_le.trans_lt h.fits)
    exact ⟨hinv, rfl, hcounts⟩

/-- The places after several changes. -/
def RcChange.actAll (flush : List RcChange) (places : List VtsID) : List VtsID :=
  flush.foldl (fun places ch => ch.act places) places

theorem rcChanges_spec {flush : List RcChange} (h : s.Inv)
    (hrun : flush.foldlM rcChange s = .ok s') (hfits : s.places.length + flush.length < 2 ^ 64) :
    s'.Inv ∧ s'.places = RcChange.actAll flush s.places ∧ Counts s s' := by
  induction flush generalizing s with
  | nil =>
    cases hrun
    exact ⟨h, rfl, rfl, rfl, id⟩
  | cons ch flush ih =>
    rw [foldlM_cons] at hrun
    obtain ⟨s₁, hch, hrun⟩ := bind_eq_ok.mp hrun
    rw [length_cons] at hfits
    obtain ⟨hinv, hplaces, hcounts⟩ := rcChange_spec h hch (by omega)
    have hlen : s₁.places.length ≤ s.places.length + 1 := by
      rw [hplaces]
      cases ch with
      | inc ii => exact le_rfl
      | dec ii => exact length_erase_le.trans (le_succ _)
    obtain ⟨hinv', hplaces', hcounts'⟩ := ih hinv hrun (by omega)
    refine ⟨hinv', ?_, hcounts'.names.trans hcounts.names, hcounts'.dead.trans hcounts.dead,
      hcounts'.cleared ∘ hcounts.cleared⟩
    rw [hplaces', hplaces]
    rfl

end VtsIDs

/-! ## Freeing -/

namespace VtsTab

variable {t t' : VtsTab} {i : ℕ} {m : Bindings VTSPtr UWord}

theorem Indexes.del {vts : VtsID → Option VTSPtr} (h : Indexes m vts)
    {p : VTSPtr} (hp : vts i = some p) (hone : ∀ j q, vts j = some q → q.ts = p.ts → j = i) :
    Indexes (m.del (keyOrd cmpVTS) p) (update vts i none) := by
  intro key q v
  have hex : (∃ j, update vts i none j = some q) ↔ ∃ j, j ≠ i ∧ vts j = some q := by
    refine exists_congr fun j => ?_
    rw [update_apply]
    split_ifs with hj <;> simp [hj]
  simp only [Bindings.del, keyOrd_cmpVTS_eq_iff, hex]
  split_ifs with hkey
  · refine iff_of_false (by simp) ?_
    rintro ⟨-, hts, j, hj, hq⟩
    exact hj (hone j q hq (hts.trans hkey))
  · rw [h key q v]
    refine and_congr_right fun _ => and_congr_right fun hts => exists_congr fun j => ?_
    refine ⟨fun hq => ⟨?_, hq⟩, And.right⟩
    rintro rfl
    obtain rfl := some.inj (hp.symm.trans hq)
    exact hkey hts.symm

/-- An entry that nobody refers to is freed. -/
theorem Table.free (h : t.Table) {te : VtsTE} {p : VTSPtr} (hte : t.tab[i]? = some te)
    (huse : te.vts = some p) (hrc : te.rc = 0) (hi : i ≠ vtsIDInvalid) {set : WordFM Unit VTSPtr UWord}
    (hm : Indexes m (vtsAt t.tab))
    (hset : WordFM.Represents cmpVTS set (m.del (keyOrd cmpVTS) p)) {tab : List VtsTE}
    (htab : tab = t.tab.set i ⟨none, 0, t.freelist⟩) :
    ({ t with tab, set, freelist := i } : VtsTab).Table
      ∧ vtsAt tab = update (vtsAt t.tab) i none ∧ rcAt tab = rcAt t.tab
      ∧ tab.length = t.tab.length := by
  subst htab
  have hlt := (List.getElem?_eq_some_iff.mp hte).1
  have hat : vtsAt t.tab i = some p := (vtsAt_of_getElem? hte).trans huse
  have hvts : vtsAt (t.tab.set i ⟨none, 0, t.freelist⟩) = update (vtsAt t.tab) i none :=
    vtsAt_set hlt _
  have hrcs : rcAt (t.tab.set i ⟨none, 0, t.freelist⟩) = rcAt t.tab := by
    rw [rcAt_set hlt]
    exact update_eq_self_iff.mpr ((rcAt_of_getElem? hte).trans hrc).symm
  have hlen : (t.tab.set i ⟨none, 0, t.freelist⟩).length = t.tab.length := length_set ..
  have hsub : ∀ j q, vtsAt (t.tab.set i ⟨none, 0, t.freelist⟩) j = some q → vtsAt t.tab j = some q := by
    intro j q hq
    rw [hvts, update_apply] at hq
    split_ifs at hq
    exact hq
  refine ⟨⟨⟨_, hset, ?_⟩, fun j q hq => h.id_eq j q (hsub j q hq),
    fun j q hq => h.addr j q (hsub j q hq), h.next_pos, h.temp, ?_, fun j hj => ?_,
    hlen.trans_le h.size⟩, hvts, hrcs, hlen⟩
  · rw [hvts]
    exact hm.del hat fun j q hq hts => h.eq_of_ts hq hat hts
  · obtain ⟨ks, hchain, hnodup, hks⟩ := h.chain
    have hnot : i ∉ ks := fun hmem => nomatch hat.symm.trans ((hks i).mp hmem).2
    refine ⟨i :: ks, ⟨rfl, hi, _, getElem?_set_self hlt, ?_⟩, nodup_cons.mpr ⟨hnot, hnodup⟩,
      fun j => ?_⟩
    · refine hchain.congr fun k hk => getElem?_set_ne ?_
      rintro rfl
      exact hnot hk
    · rw [mem_cons, hks, hlen, hvts, update_apply]
      split_ifs with hj
      · exact iff_of_true (.inl hj) ⟨hj ▸ hlt, rfl⟩
      · exact or_iff_right hj
  · rw [hrcs]
    rw [hvts, update_apply] at hj
    split_ifs at hj with hji
    · rw [hji, rcAt_of_getElem? hte, hrc]
    · exact h.free_rc j hj

/-- **One entry** of the collection. -/
theorem gcEntry_spec {n n' : ℕ} (h : t.Table) (hi : i < 2 ^ 32 - 1)
    (hrun : gcEntry (t, n) i = .ok (t', n')) :
    t'.Table ∧ vtsAt t'.tab = (if rcAt t.tab i = 0 then update (vtsAt t.tab) i none
      else vtsAt t.tab) ∧ rcAt t'.tab = rcAt t.tab ∧ t'.tab.length = t.tab.length := by
  rw [gcEntry] at hrun
  obtain ⟨te, hte, hrun⟩ := bind_eq_ok.mp hrun
  replace hte := indexXA_eq_ok.mp hte
  have hrcAt := rcAt_of_getElem? hte
  cases huse : te.vts with
  | none =>
    rw [huse] at hrun
    obtain ⟨-, hrun⟩ := vgAssert_bind_eq_ok.mp hrun
    cases hrun
    have hat : vtsAt t.tab i = none := (vtsAt_of_getElem? hte).trans huse
    rw [if_pos (h.free_rc i hat), update_eq_self_iff.mpr hat.symm]
    exact ⟨h, rfl, rfl, rfl⟩
  | some p =>
    rw [huse] at hrun
    dsimp only at hrun
    split_ifs at hrun with hrc
    · cases hrun
      rw [if_neg (by rw [hrcAt]; exact pos_iff_ne_zero.mp hrc)]
      exact ⟨h, rfl, rfl, rfl⟩
    · obtain ⟨m, hfm, hm⟩ := h.index
      obtain ⟨set, hdel, hset, -⟩ := delFromFM_spec hfm p
      have hzero : te.rc = 0 := Nat.eq_zero_of_not_pos hrc
      obtain ⟨-, hrun⟩ := vgAssert_bind_eq_ok.mp hrun
      rw [hdel, ok_bind] at hrun
      obtain ⟨-, -, hrun⟩ := bind_eq_ok.mp hrun
      obtain ⟨-, hrun⟩ := vgAssert_bind_eq_ok.mp hrun
      obtain ⟨t₁, hadd, hrun⟩ := bind_eq_ok.mp hrun
      cases hrun
      have hlt := (List.getElem?_eq_some_iff.mp hte).1
      obtain ⟨ie, hie, hadd⟩ := bind_eq_ok.mp hadd
      obtain rfl := some.inj ((getElem?_set_self hlt).symm.trans (indexXA_eq_ok.mp hie))
      simp only [vgAssert_bind_eq_ok] at hadd
      obtain rfl := ok.inj hadd.2.2.2
      rw [if_pos (hrcAt.trans hzero)]
      refine h.free hte huse hzero (hi.trans_le (by decide)).ne hm hset ?_
      rw [set_set, hzero]

/-- **A collection keeps what is referred to, and nothing else.** -/
theorem collect_spec {n n' : ℕ} {l : List ℕ} (h : t.Table) (hl : ∀ i ∈ l, i < 2 ^ 32 - 1)
    (hrun : l.foldlM gcEntry (t, n) = .ok (t', n')) :
    t'.Table ∧ rcAt t'.tab = rcAt t.tab ∧ t'.tab.length = t.tab.length
      ∧ ∀ j, vtsAt t'.tab j = if j ∈ l ∧ rcAt t.tab j = 0 then none else vtsAt t.tab j := by
  induction l generalizing t n with
  | nil =>
    cases hrun
    exact ⟨h, rfl, rfl, fun j => by rw [if_neg fun hj => not_mem_nil hj.1]⟩
  | cons i l ih =>
    obtain ⟨hi, hl⟩ := forall_mem_cons.mp hl
    rw [foldlM_cons] at hrun
    obtain ⟨⟨t₁, n₁⟩, hentry, hrun⟩ := bind_eq_ok.mp hrun
    obtain ⟨ht₁, hvts₁, hrc₁, hlen₁⟩ := gcEntry_spec h hi hentry
    obtain ⟨ht', hrc', hlen', hvts'⟩ := ih ht₁ hl hrun
    refine ⟨ht', hrc'.trans hrc₁, hlen'.trans hlen₁, fun j => ?_⟩
    rw [hvts', hrc₁, hvts₁]
    by_cases hji : j = i
    · subst hji
      by_cases hz : rcAt t.tab j = 0 <;> simp [hz]
    · by_cases hz : rcAt t.tab i = 0 <;> simp [hz, hji]

end VtsTab

/-! ## Pruning -/

namespace VtsTab

variable {t : VtsTab}

/-- A `VTS` that is not put into the table. -/
theorem Table.alloc (h : t.Table) (v : VtsID) : ({ t with
    id := update t.id t.nextAddr v
    nextAddr := t.nextAddr + 1 } : VtsTab).Table where
  index := h.index
  id_eq i p hp := by
    dsimp only
    rw [update_of_ne (h.addr i p hp).2.ne, h.id_eq i p hp]
  addr i p hp := ⟨(h.addr i p hp).1, (h.addr i p hp).2.trans (lt_succ_self _)⟩
  next_pos := succ_pos _
  temp := by
    dsimp only
    rw [update_of_ne h.next_pos.ne, h.temp]
  chain := h.chain
  free_rc := h.free_rc
  size := h.size

end VtsTab

namespace Pruning

variable {p p' : Pruning} {c : Clock} {i k : ℕ} {del : List ThrID}

/-- What holds of the new table between two entries of the old one. -/
structure Ready (p : Pruning) : Prop where
  table : p.newTable.Table
  norc : ∀ k, rcAt p.newTab k = 0
  ctr : p.newVtsIDCtr = p.newTab.length

/-- The new table of the pruned timestamps has one of them more, or has it already. -/
theorem findOrAdd_spec (h : p.Ready) (hlen : p.newTab.length ≤ i) (hi : i < 2 ^ 32 - 1)
    (hrun : p.findOrAdd i c = .ok (k, p')) :
    p'.Ready ∧ Interned p.newTable.denotes c k p'.newTable.denotes ∧ p'.old.tab = p.old.tab
      ∧ p'.newTab.length ≤ i + 1 := by
  obtain ⟨m, hfm, hm⟩ := h.table.index
  rw [findOrAdd] at hrun
  simp only [lookupFM_eq (show WordFM.Represents cmpVTS p.newSet m from hfm)] at hrun
  cases hfound : m ⟨p.old.nextAddr, c⟩ with
  | some b =>
    obtain ⟨q, v⟩ := b
    obtain ⟨-, hts, j, hq⟩ := (hm _ q v).mp hfound
    simp only [hfound, vgAssert_bind_eq_ok] at hrun
    obtain ⟨rfl, rfl⟩ := Prod.mk.inj (ok.inj hrun.2.2.2)
    have hid : update p.old.id p.old.nextAddr 0 q.addr = j := by
      rw [update_of_ne (show q.addr ≠ p.old.nextAddr from (h.table.addr j q hq).2.ne)]
      exact h.table.id_eq j q hq
    rw [hid]
    exact ⟨⟨h.table.alloc 0, h.norc, h.ctr⟩, .old (denotes_eq_some.mpr ⟨q, hq, hts⟩), rfl,
      hlen.trans (le_succ i)⟩
  | none =>
    obtain ⟨fm, hadd, hfm', -⟩ := addToFM_spec
      (show WordFM.Represents cmpVTS p.newSet m from hfm) () ⟨p.old.nextAddr, c⟩ 0
    simp only [hfound, hadd, ok_bind, vgAssert_bind_eq_ok, update_self,
      update_idem] at hrun
    obtain ⟨rfl, rfl⟩ := Prod.mk.inj (ok.inj hrun.2.2.2)
    have hput : Put p.newTable c p.newVtsIDCtr (newTable ⟨{ p.old with
        id := update p.old.id p.old.nextAddr p.newVtsIDCtr
        nextAddr := p.old.nextAddr + 1 },
        p.newTab ++ [⟨some ⟨p.old.nextAddr, c⟩, 0, vtsIDInvalid⟩], fm,
        (p.newVtsIDCtr + 1) % 2 ^ 32⟩) := by
      rw [h.ctr]
      refine ⟨vtsAt_length _, vtsAt_append _, (rcAt_append _).trans ?_, rfl, rfl⟩
      exact update_eq_self_iff.mpr (rcAt_length _).symm
    have hlen' : (p.newTab ++ [(⟨some ⟨p.old.nextAddr, c⟩, 0, vtsIDInvalid⟩ : VtsTE)]).length
        = p.newTab.length + 1 := length_append
    have hne : ∀ j, p.newTable.denotes j ≠ some c := fun j hj => by
      obtain ⟨q, hq, hts⟩ := denotes_eq_some.mp hj
      exact nomatch hfound.symm.trans ((hm _ q 0).mpr ⟨rfl, hts, j, hq⟩)
    refine ⟨⟨hput.table h.table hm hfound hfm' ⟨[], rfl, nodup_nil, fun j => ?_⟩ ?_, ?_, ?_⟩,
      hput.interned hne, rfl, ?_⟩
    · refine iff_of_false not_mem_nil fun ⟨hj, hnone⟩ => ?_
      rw [hput.vts, update_apply, h.ctr] at hnone
      split_ifs at hnone with hjl
      have hjlt : j < p.newTab.length + 1 := hlen' ▸ hj
      exact h.table.all_used rfl (lt_of_le_of_ne (Nat.lt_succ_iff.mp hjlt) hjl) hnone
    · exact hlen'.trans_le (by omega)
    · exact fun j => (congrFun hput.rc j).trans (h.norc j)
    · refine Eq.trans ?_ hlen'.symm
      rw [h.ctr, mod_eq_of_lt (by omega)]
    · exact hlen'.trans_le (by omega)

/-- **Where pruning is**, after the first `n` entries of the old table `t`. -/
structure Pruned (t : VtsTab) (del : List ThrID) (n : ℕ) (p : Pruning) : Prop extends p.Ready where
  le : p.newTab.length ≤ n
  rest : ∀ j, n ≤ j → p.old.tab[j]? = t.tab[j]?
  remap : ∀ j < n, ∀ a, t.denotes j = some a → rcAt t.tab j ≠ 0 → ∃ te a',
    p.old.tab[j]? = some te ∧ p.newTable.denotes te.link = some a'
      ∧ ∀ thr, a'.indexAt thr = if thr ∈ del then 0 else a.indexAt thr
  onto : ∀ k a', p.newTable.denotes k = some a' → ∃ j < n, rcAt t.tab j ≠ 0 ∧ ∃ te,
    p.old.tab[j]? = some te ∧ te.link = k

/-- **One entry** of the old table. -/
theorem Pruned.entry {t : VtsTab} {n : ℕ} (h : Pruned t del n p)
    (hdel : del.Pairwise (· < ·)) (hn : n < 2 ^ 32 - 1) (hrun : p.entry del n = .ok p') :
    Pruned t del (n + 1) p' := by
  rw [Pruning.entry] at hrun
  obtain ⟨oldTe, hte, hrun⟩ := bind_eq_ok.mp hrun
  replace hte := indexXA_eq_ok.mp hte
  have hte₀ : t.tab[n]? = some oldTe := (h.rest n le_rfl).symm.trans hte
  have hrcAt := rcAt_of_getElem? hte₀
  split_ifs at hrun with hrc
  · obtain ⟨-, hrun⟩ := vgAssert_bind_eq_ok.mp hrun
    cases hrun
    refine ⟨h.toReady, h.le.trans (le_succ n), fun j hj => h.rest j (le_of_succ_le hj),
      fun j hj a ha hne => ?_, fun k a' hk => ?_⟩
    · have hjn : j ≠ n := by
        rintro rfl
        exact hne (hrcAt.trans hrc)
      exact h.remap j (lt_of_le_of_ne (Nat.lt_succ_iff.mp hj) hjn) a ha hne
    · obtain ⟨j, hj, hrest⟩ := h.onto k a' hk
      exact ⟨j, hj.trans (lt_succ_self n), hrest⟩
  · obtain ⟨-, hrun⟩ := vgAssert_bind_eq_ok.mp hrun
    cases huse : oldTe.vts with
    | none =>
      rw [huse] at hrun
      exact nomatch hrun
    | some q =>
      rw [huse] at hrun
      obtain ⟨-, hrun⟩ := vgAssert_bind_eq_ok.mp hrun
      obtain ⟨pruned, hsub, hrun⟩ := bind_eq_ok.mp hrun
      obtain ⟨⟨old, set⟩, -, hrun⟩ := bind_eq_ok.mp hrun
      obtain ⟨-, -, hrun⟩ := bind_eq_ok.mp hrun
      obtain ⟨⟨remap, p₁⟩, hfind, hrun⟩ := bind_eq_ok.mp hrun
      cases hrun
      obtain ⟨c', hsub', hindex⟩ := q.ts.subtract_spec hdel
      obtain rfl := ok.inj (hsub.symm.trans hsub')
      obtain ⟨hready, hint, htab, hlen⟩ := findOrAdd_spec
        (p := { p with old := { p.old with set } }) ⟨h.table, h.norc, h.ctr⟩ h.le hn hfind
      have hlt : n < p₁.old.tab.length := by
        rw [htab]
        exact (List.getElem?_eq_some_iff.mp hte).1
      have hother : ∀ j, j ≠ n → (p₁.old.tab.set n ⟨none, oldTe.rc, remap⟩)[j]? = p.old.tab[j]? := by
        intro j hj
        rw [getElem?_set_ne hj.symm, htab]
      refine ⟨{ hready with }, hlen, fun j hj => ?_,
        fun j hj a ha hne => ?_, fun k a' hk => ?_⟩
      · exact (hother j (ne_of_gt hj)).trans (h.rest j (le_of_succ_le hj))
      · by_cases hjn : j = n
        · subst hjn
          obtain ⟨q', hq', rfl⟩ := denotes_eq_some.mp ha
          rw [vtsAt_of_getElem? hte₀, huse] at hq'
          obtain rfl := some.inj hq'
          exact ⟨_, pruned, getElem?_set_self hlt, hint.denotes, hindex⟩
        · obtain ⟨te, a', hte', ha', hidx⟩ :=
            h.remap j (lt_of_le_of_ne (Nat.lt_succ_iff.mp hj) hjn) a ha hne
          exact ⟨te, a', (hother j hjn).trans hte', hint.keeps ha', hidx⟩
      · rcases hint.eq_or_denotes hk with rfl | hk
        · exact ⟨n, lt_succ_self n, by rwa [hrcAt], _, getElem?_set_self hlt, rfl⟩
        · obtain ⟨j, hj, hne, te, hte', hlink⟩ := h.onto k a' hk
          exact ⟨j, hj.trans (lt_succ_self n), hne, te, (hother j hj.ne).trans hte', hlink⟩

/-- **All entries.** -/
theorem pruned_of_foldlM {t : VtsTab} (hdel : del.Pairwise (· < ·)) {n : ℕ}
    (hn : n ≤ 2 ^ 32 - 1) {set : WordFM Unit VTSPtr UWord} (ht : t.Table)
    (hset : set = WordFM.newFM cmpVTS)
    (hrun : (List.range n).foldlM (Pruning.entry del) ⟨t, [], set, 0⟩ = .ok p) :
    Pruned t del n p := by
  induction n generalizing p with
  | zero =>
    cases hrun
    subst hset
    refine ⟨⟨⟨⟨_, represents_newFM cmpVTS, fun _ _ _ => iff_of_false nofun ?_⟩, nofun, nofun,
      ht.next_pos, ht.temp, ⟨[], rfl, nodup_nil, fun _ => ?_⟩, fun _ _ => rfl,
      zero_le⟩, fun _ => rfl, rfl⟩, le_rfl, fun _ _ => rfl, nofun, nofun⟩
    · rintro ⟨-, -, i, hi⟩
      exact nomatch hi
    · exact iff_of_false not_mem_nil fun h => nomatch h.1
  | succ n ih =>
    rw [range_succ, foldlM_append] at hrun
    obtain ⟨p₁, hrun₁, hrun⟩ := bind_eq_ok.mp hrun
    rw [foldlM_cons] at hrun
    obtain ⟨p₂, hentry, hrun⟩ := bind_eq_ok.mp hrun
    cases hrun
    exact (ih (by omega) hrun₁).entry hdel (by omega) hentry

end Pruning

/-! ### Renaming -/

/-- Where an identifier of the old table leads. -/
def linkAt (tab : List VtsTE) (i : VtsID) : VtsID := (tab[i]?.map VtsTE.link).getD vtsIDInvalid

theorem linkAt_of_getElem? {tab : List VtsTE} {i : VtsID} {te : VtsTE} (h : tab[i]? = some te) :
    linkAt tab i = te.link := by
  rw [linkAt, h]
  rfl

theorem linkAt_setRc {tab : List VtsTE} {n : VtsID} {te : VtsTE} (h : tab[n]? = some te) (rc : ℕ) :
    linkAt (tab.set n { te with rc }) = linkAt tab :=
  (read_set (fun o => (o.map VtsTE.link).getD vtsIDInvalid) (List.getElem?_eq_some_iff.mp h).1 _).trans
    (update_eq_self_iff.mpr (linkAt_of_getElem? h).symm)

/-- **Every place is read through one renaming**, and counted again. -/
theorem remapPlaces_spec {places places' : List VtsID} {oldTab oldTab' newTab newTab' : List VtsTE}
    (hrun : remapPlaces places oldTab newTab = .ok (places', oldTab', newTab')) :
    places' = places.map (linkAt oldTab) ∧ vtsAt newTab' = vtsAt newTab
      ∧ newTab'.length = newTab.length
      ∧ ∀ k, rcAt newTab k + places'.count k < 2 ^ 64 →
        rcAt newTab' k = rcAt newTab k + places'.count k := by
  induction places generalizing oldTab newTab places' with
  | nil =>
    obtain ⟨rfl, h⟩ := mk.inj (ok.inj hrun)
    obtain ⟨rfl, rfl⟩ := mk.inj h
    exact ⟨rfl, rfl, rfl, fun k _ => rfl⟩
  | cons ii places ih =>
    rw [remapPlaces] at hrun
    obtain ⟨⟨newId, oldTab₁, newTab₁⟩, hone, hrun⟩ := bind_eq_ok.mp hrun
    obtain ⟨⟨places₁, oldTab₂, newTab₂⟩, hall, hrun⟩ := bind_eq_ok.mp hrun
    obtain ⟨rfl, h⟩ := mk.inj (ok.inj hrun)
    obtain ⟨rfl, rfl⟩ := mk.inj h
    obtain ⟨oldTe, hold, hone⟩ := bind_eq_ok.mp hone
    obtain ⟨newTe, hnew, hone⟩ := bind_eq_ok.mp hone
    replace hold := indexXA_eq_ok.mp hold
    replace hnew := indexXA_eq_ok.mp hnew
    obtain ⟨rfl, h⟩ := mk.inj (ok.inj hone)
    obtain ⟨rfl, rfl⟩ := mk.inj h
    have hlt := (List.getElem?_eq_some_iff.mp hnew).1
    obtain ⟨hplaces, hvts, hlen, hrc⟩ := ih hall
    rw [linkAt_setRc hold] at hplaces
    refine ⟨?_, hvts.trans ?_, hlen.trans (length_set ..), fun k hk => ?_⟩
    · rw [map_cons, linkAt_of_getElem? hold, hplaces]
    · rw [vtsAt_set hlt]
      exact update_eq_self_iff.mpr (vtsAt_of_getElem? hnew).symm
    · have hk' := hrc k
      rw [rcAt_set hlt, update_apply] at hk'
      rw [count_cons] at hk ⊢
      by_cases hki : k = oldTe.link
      · subst hki
        rw [if_pos rfl] at hk'
        simp only [beq_self_eq_true, if_true] at hk ⊢
        have hnow := rcAt_of_getElem? hnew
        rw [mod_eq_of_lt (by omega)] at hk'
        dsimp only at hk'
        rw [hk' (by omega)]
        omega
      · rw [if_neg hki] at hk'
        have hbeq : (oldTe.link == k) = false := beq_false_of_ne (Ne.symm hki)
        rw [hbeq, if_neg Bool.false_ne_true, add_zero] at hk ⊢
        exact hk' hk

/-- Very dead threads are listed in order. -/
theorem verydeadSortAndCheck_spec {thrids del : List ThrID}
    (h : verydeadSortAndCheck thrids = .ok del) :
    del.Pairwise (· < ·) ∧ ∀ thr, thr ∈ del ↔ thr ∈ thrids := by
  obtain ⟨hchain, hrun⟩ := vgAssert_bind_eq_ok.mp h
  cases hrun
  exact ⟨isChain_iff_pairwise.mp hchain, fun thr => mem_mergeSort⟩

/-! ## What a collection does -/

/-- What can be seen: what the identifiers denote, where they are stored, and which threads are very
dead. -/
structure VtsView where
  names : Naming VtsID Clock
  places : List VtsID
  dead : List ThrID

/-- **A collection takes back what is stored nowhere.** -/
structure Collected (v v' : VtsView) : Prop where
  names : ∀ i, v'.names i = if i ∈ v.places then v.names i else none
  places : v'.places = v.places
  dead : v'.dead = v.dead

/-- **A renaming** keeps every place's timestamp, without the threads that are very dead. -/
structure Renamed (v v' : VtsView) : Prop where
  rename : ∃ f : VtsID → VtsID, v'.places = v.places.map f
    ∧ (∀ i ∈ v.places, ∃ a a', v.names i = some a ∧ v'.names (f i) = some a'
      ∧ ∀ thr, a'.indexAt thr = if thr ∈ v.dead then 0 else a.indexAt thr)
    ∧ ∀ k c, v'.names k = some c → ∃ i ∈ v.places, f i = k
  dead : v'.dead = []

namespace VtsIDs

variable {s s' : VtsIDs}

/-- What can be seen of the identifiers. -/
def view (s : VtsIDs) : VtsView := ⟨s.names, s.places, s.verydeadNotPruned⟩

/-- **Pruning renames.** -/
theorem prune_spec (h : s.Inv) (hclear : s.Cleared) (hrun : s.prune = .ok s') :
    s'.Inv ∧ s'.Cleared ∧ Renamed s.view s'.view := by
  rw [prune] at hrun
  obtain ⟨del, hdel, hrun⟩ := bind_eq_ok.mp hrun
  obtain ⟨p, hloop, hrun⟩ := bind_eq_ok.mp hrun
  obtain ⟨verydead, -, hrun⟩ := bind_eq_ok.mp hrun
  obtain ⟨-, hrun⟩ := vgAssert_bind_eq_ok.mp hrun
  obtain ⟨⟨places, oldTab, newTab⟩, hremap, hrun⟩ := bind_eq_ok.mp hrun
  obtain ⟨-, hrun⟩ := vgAssert_bind_eq_ok.mp hrun
  obtain ⟨-, -, hrun⟩ := bind_eq_ok.mp hrun
  cases hrun
  obtain ⟨hsorted, hmem⟩ := verydeadSortAndCheck_spec hdel
  have hp := Pruning.pruned_of_foldlM hsorted h.size h.table rfl hloop
  obtain ⟨hplaces, hvts, hlen, hrc⟩ := remapPlaces_spec hremap
  have hnames : ({ p.newTable with tab := newTab } : VtsTab).denotes = p.newTable.denotes := by
    rw [denotes, hvts]
    rfl
  have hrefd : ∀ i, rcAt s.table.tab i ≠ 0 ↔ i ∈ s.places := fun i => by
    rw [h.rc_eq, ne_eq, count_eq_zero, not_not]
  -- a stored identifier denotes the pruned timestamp under its new name
  have hkept : ∀ i ∈ s.places, ∃ a a', s.names i = some a
      ∧ p.newTable.denotes (linkAt p.old.tab i) = some a'
      ∧ ∀ thr, a'.indexAt thr = if thr ∈ s.verydeadNotPruned then 0 else a.indexAt thr := by
    intro i hi
    obtain ⟨a, ha⟩ := h.placed i hi
    obtain ⟨te, a', hte, ha', hidx⟩ := hp.remap i (lt_of_denotes ha) a ha ((hrefd i).mpr hi)
    refine ⟨a, a', ha, (linkAt_of_getElem? hte).symm ▸ ha', fun thr => ?_⟩
    rw [hidx, if_congr (hmem thr) rfl rfl]
  have hcount : ∀ k, places.count k < 2 ^ 64 := fun k => by
    have := count_le_length (a := k) (l := places)
    have hle : places.length = s.places.length := by rw [hplaces, length_map]
    have := h.fits
    omega
  -- every slot of the new table is in use
  have hfree : ∀ k, vtsAt p.newTab k = none → newTab[k]? = p.newTab[k]? := fun k hk => by
    have hout : p.newTab.length ≤ k := not_lt.mp fun hlt => hp.table.all_used rfl hlt hk
    rw [getElem?_eq_none hout, getElem?_eq_none (hlen.trans_le hout)]
  refine ⟨⟨hp.table.congr hvts hlen hfree, ?_, fun k => ?_, fun k hk => ?_, ?_, ?_, ?_⟩, hclear,
    ⟨linkAt p.old.tab, hplaces, fun i hi => ?_, fun k c hk => ?_⟩, rfl⟩
  · exact (hlen.trans_le hp.le).trans h.size
  · have hk := hrc k
    rw [hp.norc, zero_add] at hk
    exact hk (hcount k)
  · obtain ⟨i, hi, rfl⟩ := mem_map.mp (hplaces ▸ hk)
    obtain ⟨a, a', -, ha', -⟩ := hkept i hi
    exact ⟨a', (congrFun hnames _).trans ha'⟩
  · dsimp only
    rw [hplaces, length_map]
    exact h.fits
  · exact fun k hne => absurd (hclear.1 k) hne
  · exact fun k hne => absurd (hclear.2 k) hne
  · obtain ⟨a, a', ha, ha', hidx⟩ := hkept i hi
    exact ⟨a, a', ha, (congrFun hnames _).trans ha', hidx⟩
  · obtain ⟨j, -, hne, te, hte, hlink⟩ := hp.onto k c ((congrFun hnames k).symm.trans hk)
    exact ⟨j, (hrefd j).mp hne, (linkAt_of_getElem? hte).trans hlink⟩

/-- The view after the changes that a collection begins with. -/
def flushed (v : VtsView) (flush : List RcChange) : VtsView :=
  { v with places := RcChange.actAll flush v.places }

/-- **`vts_tab__do_GC` collects, and may rename.** -/
theorem doGC_spec (h : s.Inv) {flush : List RcChange}
    (hfits : s.places.length + flush.length < 2 ^ 64) (hrun : s.doGC flush = .ok s') :
    s'.Inv ∧ ∃ v, Collected (flushed s.view flush) v ∧ (s'.view = v ∨ Renamed v s'.view) := by
  rw [doGC] at hrun
  obtain ⟨-, hrun⟩ := vgAssert_bind_eq_ok.mp hrun
  obtain ⟨s₁, hflush, hrun⟩ := bind_eq_ok.mp hrun
  obtain ⟨⟨table, nFreed⟩, hloop, hrun⟩ := bind_eq_ok.mp hrun
  obtain ⟨-, hrun⟩ := vgAssert_bind_eq_ok.mp hrun
  have hinv₀ : s.invalidateCaches.Inv :=
    { h with leq := fun _ hne => absurd rfl hne, join := fun _ hne => absurd rfl hne }
  have hclear₀ : s.invalidateCaches.Cleared := ⟨fun _ => rfl, fun _ => rfl⟩
  obtain ⟨hinv₁, hplaces₁, hcounts₁⟩ := rcChanges_spec hinv₀ hflush hfits
  have hclear₁ := hcounts₁.cleared hclear₀
  have hsize := hinv₁.size
  obtain ⟨ht, hrc, hlen, hvts⟩ := collect_spec hinv₁.table
    (fun i hi => (mem_range.mp hi).trans_le hsize) hloop
  have hnames : ∀ i, table.denotes i = if i ∈ s₁.places then s₁.names i else none := by
    intro i
    simp only [denotes, comp_apply, hvts, hinv₁.rc_eq, count_eq_zero, mem_range]
    by_cases hi : i ∈ s₁.places
    · rw [if_pos hi, if_neg fun hn => hn.2 hi]
      rfl
    · rw [if_neg hi]
      split_ifs with hcond
      · rfl
      · have hout : ¬ i < s₁.table.tab.length := fun hlt => hcond ⟨hlt, hi⟩
        rw [vtsAt, getElem?_eq_none (not_lt.mp hout)]
        rfl
  -- the table is collected; what follows writes only what does not matter
  have hcollected : ∀ ctr next, ({ s₁ with
      table := table, pruningAutoCtr := ctr, vtsNextGCAt := next } : VtsIDs).Inv := fun ctr next =>
    ⟨ht, hlen.trans_le hsize, fun i => (congrFun hrc i).trans (hinv₁.rc_eq i), fun i hi => by
      obtain ⟨c, hc⟩ := hinv₁.placed i hi
      exact ⟨c, (hnames i).trans ((if_pos hi).trans hc)⟩, hinv₁.fits,
      fun k hne => absurd (hclear₁.1 k) hne, fun k hne => absurd (hclear₁.2 k) hne⟩
  have hview : Collected (flushed s.view flush)
      ⟨table.denotes, s₁.places, s₁.verydeadNotPruned⟩ := by
    refine ⟨fun i => (hnames i).trans ?_, hplaces₁, hcounts₁.dead⟩
    rw [hplaces₁, hcounts₁.names]
    rfl
  simp only at hrun
  split_ifs at hrun
  · cases hrun
    exact ⟨hcollected _ _, _, hview, .inl rfl⟩
  · obtain ⟨hinv', -, hrenamed⟩ := prune_spec (hcollected _ _) hclear₁ hrun
    exact ⟨hinv', _, hview, .inr hrenamed⟩
  · cases hrun
    exact ⟨hcollected _ _, _, hview, .inl rfl⟩

/-! ## Runs -/

/-- The operations on identifiers. -/
inductive Op where
  | mkSingleton (thr : ThrID) (tym : Fin (2 ^ 46))
  | tick (vi : VtsID) (idx : ThrID)
  | join2 (vi1 vi2 : VtsID)
  | cmpLEQ (vi1 vi2 : VtsID)
  | indexAt (vi : VtsID) (idx : ThrID)
  | rc (change : RcChange)
  | verydead (thr : ThrID)
  | gc (flush : List RcChange)

/-- What an operation returns. -/
inductive Result where
  | id (vi : VtsID)
  | leq (b : Bool)
  | tym (n : ℕ)
  | unit
deriving DecidableEq

/-- One operation.  A thread that is very dead is noted by `Thr__joinedwith_done` or
`Thr__llexit_done`. -/
def step (s : VtsIDs) : Op → Except Abort (Result × VtsIDs)
  | .mkSingleton thr tym => do
    let (vi, s) ← s.mkSingleton thr tym
    return (.id vi, s)
  | .tick vi idx => do
    let (vi, s) ← s.tick vi idx
    return (.id vi, s)
  | .join2 vi1 vi2 => do
    let (vi, s) ← s.join2 vi1 vi2
    return (.id vi, s)
  | .cmpLEQ vi1 vi2 => do
    let (leq, s) ← s.cmpLEQ vi1 vi2
    return (.leq leq, s)
  | .indexAt vi idx => do return (.tym (← s.indexAt vi idx), s)
  | .rc change => do return (.unit, ← s.rcChange change)
  | .verydead thr => .ok (.unit, { s with verydeadNotPruned := s.verydeadNotPruned ++ [thr] })
  | .gc flush => do return (.unit, ← s.doGC flush)

/-- The identifier of a timestamp is returned, and nothing else changes. -/
def Given (v : VtsView) (c : Clock) (r : Result) (v' : VtsView) : Prop :=
  ∃ ii, r = .id ii ∧ Interned v.names c ii v'.names ∧ v'.places = v.places ∧ v'.dead = v.dead

/-- **What an operation does.**  An identifier that is not live is rejected, unless it is compared or
joined with itself. -/
def Op.Effect : Op → Result → VtsView → VtsView → Prop
  | .mkSingleton thr tym, r, v, v' => ∃ c, Clock.mkSingleton thr tym = .ok c ∧ Given v c r v'
  | .tick vi idx, r, v, v' => ∃ a c, v.names vi = some a ∧ a.tick idx = .ok c ∧ Given v c r v'
  | .join2 vi1 vi2, r, v, v' => (∃ a b c, v.names vi1 = some a ∧ v.names vi2 = some b
      ∧ Clock.join2 a b = .ok c ∧ Given v c r v')
    ∨ vi1 = vi2 ∧ v.names vi1 = none ∧ r = .id vi1 ∧ v' = v
  | .cmpLEQ vi1 vi2, r, v, v' => v' = v ∧ ((∃ a b, v.names vi1 = some a ∧ v.names vi2 = some b
      ∧ r = .leq (decide (a ≤ b))) ∨ vi1 = vi2 ∧ v.names vi1 = none ∧ r = .leq true)
  | .indexAt vi idx, r, v, v' => v' = v ∧ ∃ a, v.names vi = some a ∧ r = .tym (a.indexAt idx)
  | .rc change, r, v, v' => r = .unit ∧ v' = { v with places := change.act v.places }
  | .verydead thr, r, v, v' => r = .unit ∧ v' = { v with dead := v.dead ++ [thr] }
  | .gc flush, r, v, v' => r = .unit ∧ ∃ w, Collected (flushed v flush) w ∧ (v' = w ∨ Renamed w v')

/-- There is a slot for a new timestamp, and an address for a new place. -/
def Room (s : VtsIDs) : Op → Prop
  | .mkSingleton _ _ | .tick _ _ | .join2 _ _ => s.table.Room
  | .rc _ => s.places.length + 1 < 2 ^ 64
  | .gc flush => s.places.length + flush.length < 2 ^ 64
  | _ => True

/-- A call that gives the identifier of a timestamp, and returned. -/
theorem Gives.returned {call : Except Abort (VtsID × VtsIDs)} {want : Except Abort Clock} {ii : VtsID}
    (h : s.Gives call want) (hrun : call = .ok (ii, s')) :
    ∃ c, want = .ok c ∧ s'.Inv ∧ Given s.view c (.id ii) s'.view := by
  cases want with
  | error e =>
    rw [show call = .error e from h] at hrun
    exact nomatch hrun
  | ok c =>
    obtain ⟨ii', s'', hcall, hinv, hint, hframe⟩ := h
    obtain ⟨rfl, rfl⟩ := Prod.mk.inj (ok.inj (hcall.symm.trans hrun))
    exact ⟨c, rfl, hinv, ii', rfl, hint, hframe.places, hframe.dead⟩

theorem view_eq (hnames : s'.names = s.names) (hframe : Frame s s') : s'.view = s.view := by
  rw [view, view, hnames, hframe.places, hframe.dead]

/-- Identifiers that are looked up are live. -/
theorem names_of_toVTS {vi : VtsID} {p : VTSPtr} (h : s.table.toVTS vi = .ok p) :
    s.names vi = some p.ts := denotes_of_toVTS h

/-- What was in the caches was about live identifiers; what is not, is looked up. -/
theorem live_of_cmpLEQ {vi1 vi2 : VtsID} {b : Bool} (h : s.Inv)
    (hrun : s.cmpLEQ vi1 vi2 = .ok (b, s')) (hne : vi1 ≠ vi2) :
    ∃ a b, s.names vi1 = some a ∧ s.names vi2 = some b := by
  rw [cmpLEQ, if_neg hne] at hrun
  dsimp only at hrun
  split_ifs at hrun with hhit
  · obtain ⟨a, b, ha, hb, -⟩ := h.leq (hashVtsIDs vi1 vi2 nCmpLEQCache)
      (by rw [hhit.1, hhit.2]; exact hne)
    exact ⟨a, b, hhit.1 ▸ ha, hhit.2 ▸ hb⟩
  · obtain ⟨p, hp, hrun⟩ := bind_eq_ok.mp hrun
    obtain ⟨q, hq, -⟩ := bind_eq_ok.mp hrun
    exact ⟨p.ts, q.ts, names_of_toVTS hp, names_of_toVTS hq⟩

theorem live_of_join2 {vi1 vi2 vi : VtsID} (h : s.Inv)
    (hrun : s.join2 vi1 vi2 = .ok (vi, s')) (hne : vi1 ≠ vi2) :
    ∃ a b, s.names vi1 = some a ∧ s.names vi2 = some b := by
  rw [join2, if_neg hne] at hrun
  dsimp only at hrun
  split_ifs at hrun with hhit
  · obtain ⟨a, b, c, ha, hb, -⟩ := h.join (hashVtsIDs vi1 vi2 nJoin2Cache)
      (by rw [hhit.1, hhit.2]; exact hne)
    exact ⟨a, b, hhit.1 ▸ ha, hhit.2 ▸ hb⟩
  · obtain ⟨p, hp, hrun⟩ := bind_eq_ok.mp hrun
    obtain ⟨q, hq, -⟩ := bind_eq_ok.mp hrun
    exact ⟨p.ts, q.ts, names_of_toVTS hp, names_of_toVTS hq⟩

/-- **One operation** that returns has its effect, and leaves the identifiers in order. -/
theorem step_spec (h : s.Inv) {op : Op} (hroom : s.Room op) {r : Result}
    (hrun : s.step op = .ok (r, s')) : s'.Inv ∧ op.Effect r s.view s'.view := by
  cases op with
  | mkSingleton thr tym =>
    obtain ⟨⟨vi, s₁⟩, hcall, hrun⟩ := bind_eq_ok.mp hrun
    cases hrun
    obtain ⟨c, hc, hinv, hgiven⟩ := (mkSingleton_spec h hroom thr tym).returned hcall
    exact ⟨hinv, c, hc, hgiven⟩
  | tick vi idx =>
    obtain ⟨⟨vi', s₁⟩, hcall, hrun⟩ := bind_eq_ok.mp hrun
    cases hrun
    obtain ⟨p, hp, -⟩ := bind_eq_ok.mp hcall
    have ha := names_of_toVTS hp
    obtain ⟨c, hc, hinv, hgiven⟩ := (tick_spec h hroom ha idx).returned hcall
    exact ⟨hinv, p.ts, c, ha, hc, hgiven⟩
  | join2 vi1 vi2 =>
    obtain ⟨⟨vi, s₁⟩, hcall, hrun⟩ := bind_eq_ok.mp hrun
    cases hrun
    by_cases hlive : ∃ a b, s.names vi1 = some a ∧ s.names vi2 = some b
    · obtain ⟨a, b, ha, hb⟩ := hlive
      obtain ⟨c, hc, hinv, hgiven⟩ := (join2_spec h hroom ha hb).returned hcall
      exact ⟨hinv, .inl ⟨a, b, c, ha, hb, hc, hgiven⟩⟩
    · have heq : vi1 = vi2 := by
        by_contra hne
        exact hlive (live_of_join2 h hcall hne)
      subst heq
      rw [join2, if_pos rfl] at hcall
      cases hcall
      refine ⟨h, .inr ⟨rfl, eq_none_iff_forall_ne_some.mpr fun a ha => ?_, rfl, rfl⟩⟩
      exact hlive ⟨a, a, ha, ha⟩
  | cmpLEQ vi1 vi2 =>
    obtain ⟨⟨leq, s₁⟩, hcall, hrun⟩ := bind_eq_ok.mp hrun
    cases hrun
    by_cases hlive : ∃ a b, s.names vi1 = some a ∧ s.names vi2 = some b
    · obtain ⟨a, b, ha, hb⟩ := hlive
      obtain ⟨s₂, hcall', hinv, hnames, hframe⟩ := cmpLEQ_spec h ha hb
      obtain ⟨rfl, rfl⟩ := Prod.mk.inj (ok.inj (hcall'.symm.trans hcall))
      exact ⟨hinv, view_eq hnames hframe, .inl ⟨a, b, ha, hb, rfl⟩⟩
    · have heq : vi1 = vi2 := by
        by_contra hne
        exact hlive (live_of_cmpLEQ h hcall hne)
      subst heq
      rw [cmpLEQ, if_pos rfl] at hcall
      cases hcall
      refine ⟨h, rfl, .inr ⟨rfl, eq_none_iff_forall_ne_some.mpr fun a ha => ?_, rfl⟩⟩
      exact hlive ⟨a, a, ha, ha⟩
  | indexAt vi idx =>
    obtain ⟨n, hcall, hrun⟩ := bind_eq_ok.mp hrun
    cases hrun
    obtain ⟨p, hp, -⟩ := bind_eq_ok.mp hcall
    have ha := names_of_toVTS hp
    obtain rfl := ok.inj ((indexAt_spec ha idx).symm.trans hcall)
    exact ⟨h, rfl, p.ts, ha, rfl⟩
  | rc change =>
    obtain ⟨s₁, hcall, hrun⟩ := bind_eq_ok.mp hrun
    cases hrun
    obtain ⟨hinv, hplaces, hcounts⟩ := rcChange_spec h hcall hroom
    refine ⟨hinv, rfl, ?_⟩
    rw [view, hcounts.names, hplaces, hcounts.dead]
    rfl
  | verydead thr =>
    cases hrun
    exact ⟨{ h with }, rfl, rfl⟩
  | gc flush =>
    obtain ⟨s₁, hcall, hrun⟩ := bind_eq_ok.mp hrun
    cases hrun
    obtain ⟨hinv, heff⟩ := doGC_spec h hroom hcall
    exact ⟨hinv, rfl, heff⟩

/-- **A run** that returns has the effects of its operations. -/
theorem run_spec {ops : List Op} {rs : List Result} (h : s.Inv) (hroom : Meets step Room s ops)
    (hrun : run step s ops = .ok (rs, s')) : s'.Inv ∧ Effects Op.Effect ops rs s.view s'.view := by
  induction ops generalizing s rs with
  | nil =>
    cases hrun
    exact ⟨h, rfl⟩
  | cons op ops ih =>
    obtain ⟨r, rs', s₁, rfl, hstep, hrest⟩ := exists_of_run_cons hrun
    obtain ⟨hinv, heff⟩ := step_spec h hroom.1 hstep
    obtain ⟨hinv', heffs⟩ := ih hinv (hroom.2 r s₁ hstep) hrest
    exact ⟨hinv', s₁.view, heff, heffs⟩

/-- **Identifiers are canonical, and the caches transparent.**  In every run that finds a free slot,
or fewer than `2 ^ 32 - 1` slots, before an operation that makes a timestamp: every operation has
its effect, so that an identifier that is stored somewhere keeps its timestamp until a collection
renames it; live identifiers are equal iff their timestamps are; each slot is in use or on the free
list, there once; and comparison and join, with their caches, return what is computed from the
timestamps. -/
theorem vtsIDs_canonical (cloVtsPruning : VtsPruning) {ops : List Op} {rs : List Result}
    (hroom : Meets step Room (init cloVtsPruning) ops)
    (hrun : run step (init cloVtsPruning) ops = .ok (rs, s)) :
    Effects Op.Effect ops rs ⟨fun _ => none, [], []⟩ s.view
      ∧ (∀ vi1 vi2 a b, s.names vi1 = some a → s.names vi2 = some b →
        (vi1 = vi2 ↔ ∀ thr, a.indexAt thr = b.indexAt thr))
      ∧ (∀ vi, rcAt s.table.tab vi = s.places.count vi)
      ∧ (∃ free, Chain s.table.tab s.table.freelist free ∧ free.Nodup
        ∧ ∀ i, i ∈ free ↔ i < s.table.tab.length ∧ s.names i = none)
      ∧ ∀ vi1 vi2 a b, s.names vi1 = some a → s.names vi2 = some b →
        (∃ s', s.cmpLEQ vi1 vi2 = .ok (decide (a ≤ b), s') ∧ s'.view = s.view)
          ∧ (s.table.Room → s.Gives (s.join2 vi1 vi2) (Clock.join2 a b)) := by
  obtain ⟨hinv, heffs⟩ := run_spec (inv_init cloVtsPruning) hroom hrun
  refine ⟨heffs, fun vi1 vi2 a b ha hb => ?_, hinv.rc_eq, ?_, fun vi1 vi2 a b ha hb => ⟨?_, ?_⟩⟩
  · rw [← Clock.ext_iff_indexAt]
    constructor
    · rintro rfl
      exact some.inj (ha.symm.trans hb)
    · rintro rfl
      exact hinv.table.canonical ha hb
  · obtain ⟨ks, hchain, hnodup, hks⟩ := hinv.table.chain
    refine ⟨ks, hchain, hnodup, fun i => (hks i).trans (and_congr_right fun _ => ?_)⟩
    exact map_eq_none_iff.symm
  · obtain ⟨s', hcall, -, hnames, hframe⟩ := cmpLEQ_spec hinv ha hb
    exact ⟨s', hcall, view_eq hnames hframe⟩
  · exact fun hr => join2_spec hinv hr ha hb

/-- The first thread. -/
def mainThr : ThrID := ⟨1024, by decide⟩

/-- A thread ticks, its first timestamp is collected, and its slot is used again. -/
theorem vtsIDs_canonical_recycled : ∃ rs s, run step (init .never)
      [.mkSingleton mainThr 1, .tick 0 mainThr, .rc (.inc 1), .gc [], .mkSingleton mainThr 1]
        = .ok (rs, s)
    ∧ rs = [.id 0, .id 1, .unit, .unit, .id 0]
    ∧ ∀ vi, rcAt s.table.tab vi = s.places.count vi := by
  refine ⟨_, _, (and_iff_left_of_imp fun hrun =>
    ⟨rfl, (vtsIDs_canonical .never ?_ hrun).2.2.1⟩).mpr rfl⟩
  refine ⟨.inr (by decide), fun r s h => ?_⟩
  cases h
  refine ⟨.inr (by decide), fun r s h => ?_⟩
  cases h
  refine ⟨show 0 + 1 < 2 ^ 64 by decide, fun r s h => ?_⟩
  cases h
  refine ⟨show 1 + 0 < 2 ^ 64 by decide, fun r s h => ?_⟩
  cases h
  exact ⟨.inr (by decide), fun _ _ _ => trivial⟩

/-! ### Too many timestamps -/

/-- After a singleton, a reference to it, and `n` ticks one upon the other. -/
structure Grown (n : ℕ) (s : VtsIDs) : Prop where
  table : s.table.Table
  used : s.table.tab.length = n + 1
  free : s.table.freelist = vtsIDInvalid
  below : ∀ i c, s.names i = some c → c.indexAt mainThr ≤ n + 1
  first : ∃ c, s.names 0 = some c ∧ c.indexAt mainThr = 1
  last : ∃ c, s.names n = some c ∧ c.indexAt mainThr = n + 1
  rc : rcAt s.table.tab 0 = 1

/-- The next tick gives a timestamp that is not in the table. -/
theorem Grown.tick {n : ℕ} (h : Grown n s) (hn : n + 1 < 2 ^ 46 - 2) : ∃ c,
    c.indexAt mainThr = n + 2 ∧ (∀ i, s.names i ≠ some c)
      ∧ s.step (.tick n mainThr) = (s.intern c >>= fun p => .ok (.id p.1, p.2)) := by
  obtain ⟨a, ha, hidx⟩ := h.last
  obtain ⟨p, hp, rfl⟩ := toVTS_eq ha
  obtain ⟨c, hc, hcidx⟩ := Clock.tick_of_lt (show p.ts.indexAt mainThr < 2 ^ 46 - 2 from hidx ▸ hn)
  have hval : c.indexAt mainThr = n + 2 := by rw [hcidx, hidx, if_pos rfl]
  refine ⟨c, hval, fun i hi => ?_, ?_⟩
  · have := h.below i c hi
    omega
  · rw [step, VtsIDs.tick, hp, ok_bind, hc, ok_bind]
    rfl

theorem Grown.step {n : ℕ} (h : Grown n s) (hn : n + 1 < 2 ^ 32) :
    ∃ s', s.step (.tick n mainThr) = .ok (.id (n + 1), s') ∧ Grown (n + 1) s' := by
  obtain ⟨c, hval, hne, hstep⟩ := h.tick (by omega)
  obtain ⟨t', hrun, ht', hput, hlen, hfree⟩ :=
    findOrCloneAndAdd_grow h.table hne h.free (h.used.trans_lt hn)
  have hint := hput.interned hne
  refine ⟨{ s with table := t' }, ?_, ht', ?_, hfree, fun i a ha => ?_, ?_, ⟨c, ?_, hval⟩, ?_⟩
  · rw [hstep, intern, hrun, h.used]
    rfl
  · exact hlen.trans (congrArg (· + 1) h.used)
  · have hden : t'.denotes = _ := denotes_of_update hput.vts
    rw [names, hden, update_apply] at ha
    split_ifs at ha
    · rw [← some.inj ha, hval]
    · exact (h.below i a ha).trans (le_succ _)
  · obtain ⟨a, ha, hidx⟩ := h.first
    exact ⟨a, hint.keeps ha, hidx⟩
  · have := hint.denotes
    rwa [h.used] at this
  · exact (congrFun hput.rc 0).trans h.rc

theorem exists_grown_zero : ∃ s₁ s₂, (init .never).step (.mkSingleton mainThr 1) = .ok (.id 0, s₁)
    ∧ s₁.step (.rc (.inc 0)) = .ok (.unit, s₂) ∧ Grown 0 s₂ := by
  have hrun : ∃ s₁ s₂, (init .never).step (.mkSingleton mainThr 1) = .ok (.id 0, s₁)
      ∧ s₁.step (.rc (.inc 0)) = .ok (.unit, s₂) ∧ s₁.places = []
      ∧ s₂.table.tab.length = 1 ∧ s₂.table.freelist = vtsIDInvalid ∧ rcAt s₂.table.tab 0 = 1
      ∧ ∃ c, s₂.names 0 = some c ∧ c.indexAt mainThr = 1 :=
    ⟨_, _, rfl, rfl, rfl, rfl, rfl, rfl, _, rfl, rfl⟩
  obtain ⟨s₁, s₂, hstep₁, hstep₂, hplaces, hlen, hfree, hrc, c, hc, hone⟩ := hrun
  have hroom₁ : (init .never).Room (.mkSingleton mainThr 1) := .inr (by decide)
  have hroom₂ : s₁.Room (.rc (.inc 0)) := show s₁.places.length + 1 < 2 ^ 64 by simp [hplaces]
  have hinv₁ := (step_spec (inv_init .never) hroom₁ hstep₁).1
  have hinv₂ := (step_spec hinv₁ hroom₂ hstep₂).1
  refine ⟨s₁, s₂, hstep₁, hstep₂, hinv₂.table, hlen, hfree, fun i a ha => ?_, ⟨c, hc, hone⟩,
    ⟨c, hc, hone⟩, hrc⟩
  have hi : i = 0 := lt_one_iff.mp (hlen ▸ lt_of_denotes ha)
  rw [hi, hc] at ha
  rw [← some.inj ha, hone]

/-- **A stored identifier gets another timestamp** when a table of `2 ^ 32` slots grows: the 32-bit
identifier of the new slot is 0. -/
theorem overflow_renames : ∃ rs s s' a b, run step (init .never)
      (.mkSingleton mainThr 1 :: .rc (.inc 0)
        :: (List.range' 0 (2 ^ 32 - 1)).map fun vi => .tick vi mainThr) = .ok (rs, s)
    ∧ rcAt s.table.tab 0 = 1 ∧ s.names 0 = some a
    ∧ s.step (.tick (2 ^ 32 - 1) mainThr) = .ok (.id 0, s') ∧ s'.names 0 = some b ∧ b ≠ a
    ∧ rcAt s'.table.tab 0 = 0 := by
  obtain ⟨s₁, s₂, hstep₁, hstep₂, hgrown⟩ := exists_grown_zero
  obtain ⟨rs, s, hrun, hs⟩ := run_range' (N := 2 ^ 32 - 1)
    (fun n s h hn => ⟨_, h.step (by omega)⟩) hgrown (zero_add _)
  obtain ⟨a, ha, hidxa⟩ := hs.first
  obtain ⟨b, hidxb, hne, hstep⟩ := hs.tick (by norm_num)
  obtain ⟨t', hwrap, hb, hrc⟩ := findOrCloneAndAdd_wrap hs.table hne hs.free hs.used
  refine ⟨_, s, { s with table := t' }, a, b, run_cons hstep₁ (run_cons hstep₂ hrun), hs.rc, ha, ?_,
    hb, ?_, hrc⟩
  · rw [hstep, intern, hwrap]
    rfl
  · rintro rfl
    rw [hidxa] at hidxb
    exact absurd hidxb (by norm_num)

end VtsIDs

end Valgrind.Helgrind
