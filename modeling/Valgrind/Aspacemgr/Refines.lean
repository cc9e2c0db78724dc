import Valgrind.Aspacemgr.PageMap

/-!
# Aspacemgr/Refines — the segment array refines a page map

**Refinement** (`segmentArray_refines_pageMap`): along every run whose operations meet their
conditions, the operations return and have their effects, the array stays a partition of the address
space in which no neighbours can be merged, and it says of every address what the page map says.

Most conditions are what an operation asserts of its caller.  One is not for the caller to see: a
file must be mapped under the name its segments already have.  Otherwise merging gives up a name
that is still in use, and a later operation fails an assertion (`two_names_abort`). -/

namespace Valgrind.Aspacemgr

open NSegment Tiling Aspacem List Option SegKind Segnames Except

/-! ## Conditions -/

/-- A range of pages that ends before the last address. -/
structure PageRange (a len : ℕ) : Prop where
  start_page : a % pageSize = 0
  len_page : len % pageSize = 0
  pos : 0 < len
  fits : a + len < 2 ^ 64

/-- The segments of the file that is mapped have the name it is mapped under. -/
def SameName (st : Aspacem) (fd : FdInfo) : Prop :=
  ∀ s ∈ st.segs, s.kind.isFile → s.dev = fd.stat.elim 0 (·.1) → s.ino = fd.stat.elim 0 (·.2.1) →
    s.fnIdx.bind st.names.nameOf = fd.filename.map Subtype.val

/-- What an operation needs, apart from room: ranges of pages, what it asserts of the segments there
and of the kernel's answer, and one name for each file. -/
def Op.Meets (st : Aspacem) : Op → Prop
  | .mmap a len _ flags offset fd =>
    PageRange a len ∧ offset % pageSize = 0 ∧ (mapAnonymous flags = false → SameName st fd)
  | .shmat a len _ => PageRange a len
  | .mprotect start len _ => PageRange start len
  | .munmap start len => PageRange start len
  | .munmapClient start len _ => PageRange start len
  | .changeOwnership start len => PageRange start len
  | .setHasT addr => ∃ s ∈ st.segs, s.start ≤ addr ∧ addr ≤ s.stop ∧ s.kind.isClient
  | .createReservation zone _ =>
    zone.start % pageSize = 0 ∧ zone.length % pageSize = 0 ∧ zone.extra.natAbs % pageSize = 0
  | .extendReservation addr delta _ =>
    (∃ s ∈ st.segs, s.start ≤ addr ∧ addr ≤ s.stop ∧ s.kind = .anonC)
      ∧ delta.natAbs % pageSize = 0
  | .extendMap addr delta sres => ∃ l₁ s sf l₂, st.segs = l₁ ++ s :: sf :: l₂ ∧ s.start ≤ addr
      ∧ addr ≤ s.stop ∧ s.kind.isClient ∧ sf.kind = .free ∧ 0 < delta ∧ delta % pageSize = 0
      ∧ s.stop + delta ≤ sf.stop ∧ s.stop + 1 + delta < 2 ^ 64
      ∧ (sres = none ∨ sres = some s.start)
  | .relocate oldAddr oldLen newAddr newLen sres =>
    PageRange oldAddr oldLen ∧ PageRange newAddr newLen ∧ (sres = none ∨ sres = some newAddr)

/-- An operation finds what it needs, and room for the segments it splits. -/
def Ready (st : Aspacem) (op : Op) : Prop := op.Meets st ∧ st.segs.length + 4 ≤ nSegments

/-! ## Operations return -/

section

variable {st : Aspacem} {g : ℕ → ℕ → Option ℕ} {a len x : ℕ} {s sA : NSegment} {t : Segnames}
  {l l₁ l₂ m : List NSegment} {delta : ℤ} {k : NSegment → NSegment}

/-- An address is found. -/
theorem findNsegmentIdx_returns (h : Tiles 0 l (2 ^ 64)) (hx : x < 2 ^ 64) :
    ∃ l₁ s l₂, l = l₁ ++ s :: l₂ ∧ s.start ≤ x ∧ x ≤ s.stop
      ∧ findNsegmentIdx l x = .ok l₁.length := by
  obtain ⟨l₁, s, l₂, rfl, -, hlo, hhi, -⟩ := h.exists_piece zero_le hx
  exact ⟨l₁, s, l₂, rfl, hlo, hhi, findNsegmentIdx_eq h hlo hhi⟩

theorem anyTsInRange_returns (h : Tiles 0 st.segs (2 ^ 64)) (hr : PageRange a len) :
    ∃ d, anyTsInRange st.segs a len = .ok d := by
  have hpos := hr.pos
  have hfits := hr.fits
  obtain ⟨l₁, s₁, l₂, -, -, -, hLo⟩ := findNsegmentIdx_returns (x := a) h (by omega)
  obtain ⟨r₁, s₂, r₂, -, -, -, hHi⟩ := findNsegmentIdx_returns (x := a + len - 1) h (by omega)
  have hmod : (a + len) % 2 ^ 64 > a := by
    rw [Nat.mod_eq_of_lt hfits]
    omega
  refine ⟨(slice st.segs l₁.length r₁.length).any (·.hasT), ?_⟩
  rw [anyTsInRange, vgAssert_bind hpos, vgAssert_bind hmod, hLo, ok_bind, hHi, ok_bind, pure_eq_ok]

theorem PageRange.stop_page (h : PageRange a len) : (a + len - 1 + 1) % pageSize = 0 := by
  have h₁ := h.start_page
  have h₂ := h.len_page
  have h₃ := h.pos
  rw [pageSize] at *
  omega

/-- The name of a file that is mapped: the segments of the file have it already. -/
theorem allocateName_returns {fd : FdInfo} (hn : NamesOk g l t) (hsame : SameName ⟨l, t⟩ fd) :
    ∃ o t', allocateName t fd = .ok (o, t') ∧ t.Allocated (refsOf l) o t'
      ∧ ∀ s ∈ l, s.kind.isFile → s.dev = fd.stat.elim 0 (·.1) → s.ino = fd.stat.elim 0 (·.2.1) →
        s.fnIdx = o := by
  rw [allocateName]
  cases hname : fd.filename with
  | none =>
    refine ⟨none, t, rfl, ⟨hn.wf, le_rfl, hn.backs, nofun⟩, fun s hs hf hdev hino => ?_⟩
    have hnone := hsame s hs hf hdev hino
    rw [hname] at hnone
    cases hk : s.fnIdx with
    | none => rfl
    | some k =>
      have hlive := hn.live hs hk
      rw [hk, bind_some, map_none] at hnone
      rw [← isSome_nameOf, hnone] at hlive
      exact absurd hlive Bool.false_ne_true
  | some name =>
    obtain ⟨o, t', halloc, hspec, hfound⟩ :=
      amAllocateSegname_spec hn.wf hn.backs name.2
    refine ⟨o, t', halloc, hspec, fun s hs hf hdev hino => ?_⟩
    have hsome := hsame s hs hf hdev hino
    rw [hname, map_some, bind_eq_some_iff] at hsome
    obtain ⟨k, hk, hnk⟩ := hsome
    rw [hk, hfound k hnk]

/-- The names after an allocation still fit the segments, with the new name for its file. -/
theorem Valid.allocated (h : Valid g st) {o : Option ℕ} {t' : Segnames} {dev ino : ℕ}
    (halloc : st.names.Allocated (refsOf st.segs) o t')
    (hsame : ∀ s ∈ st.segs, s.kind.isFile → s.dev = dev → s.ino = ino → s.fnIdx = o) :
    Valid (fun d i => if d = dev ∧ i = ino then o else g d i) ⟨st.segs, t'⟩ := by
  refine ⟨h.tiles, fun s hs => saneNSegment_mono (h.sane s hs) halloc.used_le, halloc.wf,
    halloc.backs, fun s hs hf => ?_⟩
  split_ifs with hfile
  · exact hsame s hs hf hfile.1 hfile.2
  · exact h.names.agree s hs hf

theorem saneKind_hole (lim : Limits) (start stop start' stop' : ℕ) :
    saneKind t { kind := holeKind lim start stop, start := start', stop := stop' } := by
  rw [holeKind]
  split_ifs <;> rfl

theorem isFile_hole (lim : Limits) (start stop : ℕ) : (holeKind lim start stop).isFile = false := by
  rw [holeKind]
  split_ifs <;> rfl

theorem isValidFor_returns (h : Tiles 0 l (2 ^ 64)) (kinds : SegKind → Bool) (prot : ℕ)
    (hr : PageRange a len) : ∃ ok, isValidFor l kinds a len prot = .ok ok := by
  have hpos := hr.pos
  have hfits := hr.fits
  obtain ⟨l₁, s₁, l₂, rfl, hlo, -, hLo⟩ := findNsegmentIdx_returns (x := a) h (by omega)
  obtain ⟨r₁, s₂, r₂, -, -, -, hHi⟩ := findNsegmentIdx_returns (x := a + len - 1) h (by omega)
  obtain ⟨i, hi⟩ : ∃ i, lastIdx (l₁ ++ s₁ :: l₂) l₁.length s₁ (a + len - 1) = .ok i := by
    rw [lastIdx]
    split_ifs
    · exact ⟨_, rfl⟩
    · exact ⟨_, hHi⟩
  rw [isValidFor, if_neg hpos.ne', Nat.mod_eq_of_lt hfits, if_neg (by omega), hLo, ok_bind,
    nsegmentAt_append, ok_bind, vgAssert_bind hlo, hi, ok_bind, pure_eq_ok]
  exact ⟨_, rfl⟩

theorem pgroundup_of_page (hr : PageRange a len) : pgroundup len = len := by
  have h₁ := hr.len_page
  have h₂ := hr.fits
  rw [pgroundup]
  rw [pageSize] at *
  omega

theorem saneNSegment_setPerms (h : saneNSegment t s) (prot : ℕ) :
    saneNSegment t (s.setPerms prot) := by
  obtain ⟨hle, hstart, hstop, hkind⟩ := saneNSegment_iff.mp h
  rw [setPerms]
  split_ifs with hmapped
  · refine saneNSegment_iff.mpr ⟨hle, hstart, hstop, ?_⟩
    rw [saneKind] at hkind ⊢
    cases hk : s.kind with
    | free | resvn => simp [hk, isMapped] at hmapped
    | fileC | fileV => simpa only [hk] using hkind
    | anonC | anonV | shmC => simpa [hk, plain] using hkind
  · exact h

theorem setPerms_fnIdx (prot : ℕ) (s : NSegment) : (s.setPerms prot).fnIdx = s.fnIdx := by
  rw [setPerms]
  split_ifs <;> rfl

theorem agree_setPerms (h : Agree g s) (prot : ℕ) : Agree g (s.setPerms prot) := by
  rw [setPerms]
  split_ifs
  · exact h
  · exact h

theorem refsOf_map (hk : ∀ s, (k s).fnIdx = s.fnIdx)
    (l : List NSegment) : refsOf (l.map k) = refsOf l := by
  induction l with
  | nil => rfl
  | cons s l ih => rw [map_cons, refsOf_cons, refsOf_cons, hk, ih]

/-- Segments may be replaced by others that are sane and have their names. -/
theorem Valid.replace {m' : List NSegment} (h : Valid g ⟨l₁ ++ (m ++ l₂), t⟩)
    (ht : Tiles 0 (l₁ ++ (m' ++ l₂)) (2 ^ 64)) (hrefs : refsOf m' = refsOf m)
    (hsane : ∀ s ∈ m', saneNSegment t s) (hagree : ∀ s ∈ m', Agree g s) :
    Valid g ⟨l₁ ++ (m' ++ l₂), t⟩ := by
  have hmem : ∀ {P : NSegment → Prop}, (∀ s ∈ l₁ ++ (m ++ l₂), P s) → (∀ s ∈ m', P s) →
      ∀ s ∈ l₁ ++ (m' ++ l₂), P s := by
    intro P hP hP'
    obtain ⟨hP₁, hP⟩ := forall_mem_append.mp hP
    exact forall_mem_append.mpr
      ⟨hP₁, forall_mem_append.mpr ⟨hP', (forall_mem_append.mp hP).2⟩⟩
  have hrefs : refsOf (l₁ ++ (m' ++ l₂)) = refsOf (l₁ ++ (m ++ l₂)) := by
    simp only [refsOf_append, hrefs]
  exact ⟨ht, hmem h.sane hsane, h.names.wf, hrefs ▸ h.names.backs, hmem h.names.agree hagree⟩

/-- …in particular they may be updated in place. -/
theorem Valid.map (h : Valid g ⟨l₁ ++ (m ++ l₂), t⟩)
    (hstart : ∀ s, (k s).start = s.start) (hstop : ∀ s, (k s).stop = s.stop)
    (hname : ∀ s, (k s).fnIdx = s.fnIdx) (hsane : ∀ s ∈ m, saneNSegment t s → saneNSegment t (k s))
    (hagree : ∀ s ∈ m, Agree g s → Agree g (k s)) : Valid g ⟨l₁ ++ (m.map k ++ l₂), t⟩ := by
  obtain ⟨p, h₁, hr⟩ := tiles_append.mp h.tiles
  obtain ⟨q, hm, h₂⟩ := tiles_append.mp hr
  have hmem : ∀ s ∈ m, s ∈ l₁ ++ (m ++ l₂) := fun s hs => by simp [hs]
  refine h.replace (h₁.append (((tiles_map hstart hstop).mpr hm).append h₂)) (refsOf_map hname m)
    (forall_mem_map.mpr fun s hs => hsane s hs (h.sane s (hmem s hs)))
    (forall_mem_map.mpr fun s hs => hagree s hs (h.names.agree s (hmem s hs)))

theorem saneNSegment_toClient (h : saneNSegment t s) : saneNSegment t s.toClient := by
  obtain ⟨hle, hstart, hstop, hkind⟩ := saneNSegment_iff.mp h
  rw [saneNSegment_iff, toClient_start, toClient_stop]
  refine ⟨hle, hstart, hstop, ?_⟩
  rw [saneKind] at hkind
  cases hk : s.kind with
  | fileV | anonV => simp_all [toClient, saneKind, plain]
  | fileC | anonC | free | resvn | shmC => simpa [toClient, saneKind, hk] using hkind

theorem toClient_fnIdx (s : NSegment) : s.toClient.fnIdx = s.fnIdx := by
  rw [toClient]
  split <;> rfl

theorem agree_toClient (h : Agree g s) : Agree g s.toClient := by
  cases hk : s.kind with
  | fileV =>
    intro _
    simpa [toClient, hk] using h (by simp [hk, isFile])
  | anonV => simp [Agree, toClient, hk, isFile]
  | fileC | anonC | free | resvn | shmC =>
    simpa [toClient, hk] using h

theorem setHasT_returns (h : Valid g st) (hs : s ∈ st.segs) (hlo : s.start ≤ x) (hhi : x ≤ s.stop)
    (hkind : s.kind.isClient) : ∃ st', st.amSetSegmentHasT x = .ok st' ∧ Valid g st' := by
  obtain ⟨l, t⟩ := st
  obtain ⟨l₁, l₂, rfl⟩ := append_of_mem hs
  refine ⟨⟨l₁ ++ { s with hasT := true } :: l₂, t⟩, ?_, ?_⟩
  · rw [amSetSegmentHasT, findNsegmentIdx_eq h.tiles hlo hhi, ok_bind, nsegmentAt_append, ok_bind,
      vgAssert_bind hkind, take_left, drop_succ_append, pure_eq_ok]
  · refine Valid.map (k := fun s => { s with hasT := true }) (m := [s]) h (fun _ => rfl)
      (fun _ => rfl) (fun _ => rfl) (fun s' hs' hsane => ?_) fun _ _ hs => hs
    obtain rfl := mem_singleton.mp hs'
    obtain ⟨hle, hstart, hstop, hsane⟩ := saneNSegment_iff.mp hsane
    refine saneNSegment_iff.mpr ⟨hle, hstart, hstop, ?_⟩
    rw [saneKind] at hsane ⊢
    cases hk : s'.kind with
    | free | resvn | anonV | fileV => simp [hk, isClient] at hkind
    | anonC | fileC | shmC => simpa [hk, plain] using hsane

/-- The boundary between neighbours may be moved to the end of another page. -/
theorem Valid.resize {r : NSegment} {b c : ℕ} (h : Valid g ⟨l₁ ++ s :: r :: l₂, t⟩)
    (ht : Tiles 0 (l₁ ++ { s with stop := b } :: { r with start := c } :: l₂) (2 ^ 64))
    (hb : (b + 1) % pageSize = 0) :
    Valid g ⟨l₁ ++ { s with stop := b } :: { r with start := c } :: l₂, t⟩ := by
  obtain ⟨-, hstart, -, hs⟩ := saneNSegment_iff.mp (h.sane s (by simp))
  obtain ⟨-, -, hstop, hr⟩ := saneNSegment_iff.mp (h.sane r (by simp))
  obtain ⟨hsle, hadj, hrle⟩ := neighbours ht
  have hc : c % pageSize = 0 := (show c = b + 1 from hadj) ▸ hb
  have hs' : saneNSegment t { s with stop := b } := saneNSegment_iff.mpr ⟨hsle, hstart, hb, hs⟩
  have hr' : saneNSegment t { r with start := c } := saneNSegment_iff.mpr ⟨hrle, hc, hstop, hr⟩
  have hrefs : refsOf [{ s with stop := b }, { r with start := c }] = refsOf [s, r] := by simp
  exact Valid.replace (m := [s, r]) h ht hrefs (by simpa using ⟨hs', hr'⟩)
    (by simpa using ⟨h.names.agree s (by simp), h.names.agree r (by simp)⟩)

/-- Extending into a reservation moves such a boundary. -/
theorem Valid.extended {lim : Limits} {sres : Option ℕ} {r : Reply} {st' : Aspacem}
    (h : Valid g st) (hc : Change lim st.segs (.extendReservation x delta sres) r st'.segs)
    (hnames : st'.names = st.names) : Valid g st' := by
  have htiles := hc.tiles h.tiles
  obtain ⟨l, t⟩ := st
  obtain ⟨l', t'⟩ := st'
  obtain rfl : t' = t := hnames
  cases hc with
  | failed | extendNone => exact h
  | @extendForwards _ _ _ l₁ sA sR l₂ hl _ _ _ _ _ hpage =>
    subst hl
    obtain ⟨-, -, hstop, -⟩ := saneNSegment_iff.mp (h.sane sA (by simp))
    refine h.resize htiles ?_
    rw [pageSize] at *
    omega
  | @extendBackwards _ _ _ l₁ sA sR l₂ hl _ _ _ _ _ hpage hfit =>
    subst hl
    obtain ⟨-, -, hstop, -⟩ := saneNSegment_iff.mp (h.sane sR (by simp))
    refine h.resize htiles ?_
    rw [pageSize] at *
    omega

theorem saneKind_relocated (h : s.saneKind t) (oldAddr newAddr newLen : ℕ) :
    (relocated s oldAddr newAddr newLen).saneKind t := by
  rw [saneKind] at h
  cases hk : s.kind with
  | fileC | fileV => simpa [saneKind, relocated, hk] using h
  | free | anonC | anonV | shmC | resvn =>
    simpa [saneKind, relocated, hk, plain, bare] using h

/-- A segment of pages that is not of a file, and sane in its kind, can be added. -/
theorem addPlain_returns (h : Valid g st) (hroom : st.segs.length + 2 ≤ nSegments)
    (seg : NSegment) (hr : PageRange a len) (hstart : seg.start = a)
    (hstop : seg.stop = a + len - 1) (hkind : seg.saneKind st.names)
    (hfile : seg.kind.isFile = false) (hname : seg.fnIdx = none) :
    ∃ st', st.addSegment seg = .ok st' ∧ Valid g st' := by
  have hpos := hr.pos
  have hfits := hr.fits
  refine addSegment_returns h (by omega) hroom (saneNSegment_iff.mpr ⟨by omega, ?_, ?_, hkind⟩)
    (fun hf => absurd hf (by simp [hfile])) fun k hk => ?_
  · rw [hstart]
    exact hr.start_page
  · rw [hstop]
    exact hr.stop_page
  · rw [hname] at hk
    cases hk

/-- A call returns, and leaves a valid array. -/
def Returns {ρ : Type} (out : Except Abort (ρ × Aspacem)) : Prop :=
  ∃ r st g, out = .ok (r, st) ∧ Valid g st

theorem Valid.returns {ρ : Type} {r : ρ} (h : Valid g st) : Returns (.ok (r, st)) :=
  ⟨r, st, g, rfl, h⟩

theorem Returns.reply {ρ : Type} {out : Except Abort (ρ × Aspacem)} (h : Returns out)
    (f : ρ → Reply) : Returns (out >>= fun (r, st) => return (f r, st)) := by
  obtain ⟨r, st, g, rfl, hvalid⟩ := h
  exact hvalid.returns

section Roomy

variable (h : Valid g st) (hroom : st.segs.length + 4 ≤ nSegments) {sres : Option ℕ}
include h hroom

section Paged

variable (hr : PageRange a len)
include hr

theorem shmat_returns (prot : ℕ) : Returns (st.amNotifyClientShmat a len prot) := by
  obtain ⟨d, hd⟩ := anyTsInRange_returns h.tiles hr
  obtain ⟨st', hadd, hvalid⟩ := addPlain_returns h (by omega) (plainSegment .shmC a len prot) hr rfl
    rfl rfl rfl rfl
  rw [amNotifyClientShmat, vgAssert_bind hr.pos, vgAssert_bind hr.start_page,
    vgAssert_bind hr.len_page, hd, ok_bind, hadd]
  exact hvalid.returns

theorem mmap_returns (prot flags : ℕ) {offset : ℕ} {fd : FdInfo} (hoff : offset % pageSize = 0)
    (hsame : mapAnonymous flags = false → SameName st fd) :
    Returns (st.amNotifyClientMmap a len prot flags offset fd) := by
  obtain ⟨d, hd⟩ := anyTsInRange_returns h.tiles hr
  have hpos := hr.pos
  have hfits := hr.fits
  rw [amNotifyClientMmap, vgAssert_bind hr.pos, vgAssert_bind hr.start_page,
    vgAssert_bind hr.len_page, vgAssert_bind hoff, hd, ok_bind, mmapSegment]
  by_cases hanon : mapAnonymous flags = true
  · obtain ⟨st', hadd, hvalid⟩ := addPlain_returns h (by omega) (plainSegment .anonC a len prot) hr rfl
      rfl rfl rfl rfl
    rw [if_pos hanon, ok_bind]
    dsimp only
    rw [hadd]
    exact hvalid.returns
  · obtain ⟨o, t', hname, halloc, hone⟩ :=
      allocateName_returns h.names (hsame (by simpa using hanon))
    have hvalid₁ := h.allocated halloc hone
    have hsane : saneNSegment t' (fileSegment a len prot offset fd o) := by
      refine saneNSegment_iff.mpr ⟨?_, hr.start_page, hr.stop_page, ?_⟩
      · change a ≤ a + len - 1
        omega
      · have hseg := halloc.wf.saneSegname halloc.live
        simp [saneKind, fileSegment, hseg]
    obtain ⟨st', hadd, hvalid⟩ := addSegment_returns hvalid₁
      (show a + len - 1 < 2 ^ 64 by omega) (show st.segs.length + 2 ≤ nSegments by omega) hsane
      (fun _ => (if_pos ⟨rfl, rfl⟩).symm) halloc.live
    rw [if_neg hanon, hname, ok_bind]
    dsimp only
    rw [pure_eq_ok, ok_bind]
    dsimp only
    rw [hadd]
    exact hvalid.returns

theorem munmap_returns (lim : Limits) : Returns (st.amNotifyMunmap lim a len) := by
  obtain ⟨d, hd⟩ := anyTsInRange_returns h.tiles hr
  obtain ⟨st', hadd, hvalid⟩ := addPlain_returns h (by omega)
    { kind := holeKind lim a (a + len - 1), start := a, stop := a + len - 1 } hr rfl rfl
    (saneKind_hole lim _ _ _ _) (isFile_hole lim _ _) rfl
  rw [amNotifyMunmap, vgAssert_bind hr.start_page, vgAssert_bind hr.len_page, if_neg hr.pos.ne',
    munmapRange, hd, ok_bind]
  dsimp only
  rw [hadd]
  exact hvalid.returns

theorem munmapClient_returns (lim : Limits) (sres : Bool) :
    Returns (st.amMunmapClient lim a len sres) := by
  have hfits := hr.fits
  obtain ⟨ok, hok⟩ := isValidFor_returns h.tiles (munmapKinds true) 0 hr
  obtain ⟨d, hd⟩ := anyTsInRange_returns h.tiles hr
  obtain ⟨d', st', g', hmunmap, hvalid⟩ := munmap_returns h hroom hr lim
  rw [amMunmapClient, amMunmapBothWrk, if_neg (not_not.mpr hr.start_page), if_neg hr.pos.ne',
    Nat.mod_eq_of_lt hfits, if_neg (by omega), pgroundup_of_page hr, hok, ok_bind]
  cases ok with
  | false => exact h.returns
  | true =>
    rw [if_pos rfl, munmapAnswered, hd, ok_bind]
    cases sres with
    | false => exact h.returns
    | true =>
      rw [if_pos rfl, hmunmap]
      exact hvalid.returns

/-- Both splits return, and leave a valid array. -/
theorem split_returns :
    ∃ t' l₁ m l₂ iHi, carve a (a + len - 1) st.segs = l₁ ++ (m ++ l₂)
      ∧ Valid g ⟨l₁ ++ (m ++ l₂), t'⟩ ∧ iHi + 1 = l₁.length + m.length
      ∧ st.splitNsegmentsLoAndHi a (a + len - 1) = .ok (⟨l₁ ++ (m ++ l₂), t'⟩, l₁.length, iHi)
      ∧ findNsegmentIdx (l₁ ++ (m ++ l₂)) a = .ok l₁.length
      ∧ findNsegmentIdx (l₁ ++ (m ++ l₂)) (a + len - 1) = .ok iHi := by
  have hpos := hr.pos
  have hfits := hr.fits
  have hlt : a < a + len - 1 := by
    have hpage := hr.len_page
    rw [pageSize] at hpage
    omega
  obtain ⟨t', iLo, iHi, hsplit, hvalid, -⟩ := splitNsegmentsLoAndHi_returns h hlt (by omega)
    hr.start_page hr.stop_page (by omega)
  obtain ⟨-, -, -, -, l₁, m, l₂, hcarve, -, -, -, -, rfl, hiHi, hfLo, hfHi⟩ :=
    splitNsegmentsLoAndHi_segs h.tiles hsplit
  dsimp only at hfLo hfHi
  rw [hcarve] at hsplit hvalid hfLo hfHi
  exact ⟨t', l₁, m, l₂, iHi, hcarve, hvalid, hiHi, hsplit, hfLo, hfHi⟩

theorem mprotect_returns (prot : ℕ) : Returns (st.amNotifyMprotect a len prot) := by
  obtain ⟨d, hd⟩ := anyTsInRange_returns h.tiles hr
  obtain ⟨t', l₁, m, l₂, iHi, -, hvalid, hiHi, hsplit, hfLo, hfHi⟩ := split_returns h hroom hr
  have hvalid' := hvalid.map (setPerms_start prot) (setPerms_stop prot) (setPerms_fnIdx prot)
    (fun s _ hs => saneNSegment_setPerms hs prot) fun s _ hs => agree_setPerms hs prot
  have hassert : (m.map (setPerms prot)).all fun s => !s.kind.isMapped || saneNSegment t' s := by
    refine all_eq_true.mpr fun s hs => ?_
    rw [hvalid'.sane s (by simp [hs]), Bool.or_true]
  obtain ⟨st', hpreen, hvalid''⟩ := preenNsegments_returns hvalid'
  rw [amNotifyMprotect, vgAssert_bind hr.start_page, vgAssert_bind hr.len_page, if_neg hr.pos.ne',
    mprotectRange, hd, ok_bind, hsplit, ok_bind]
  dsimp only
  rw [hfLo, ok_bind, hfHi, ok_bind, slice_append _ _ _ hiHi, vgAssert_bind hassert,
    take_left, drop_append_length hiHi, hpreen]
  exact hvalid''.returns

theorem changeOwner_returns (hs : s ∈ st.segs) (hlo : s.start ≤ a) (hhi : a + len - 1 ≤ s.stop)
    (hkind : s.kind.isValgrind) :
    Returns (st.changeOwner a (a + len - 1)) := by
  have hpos := hr.pos
  obtain ⟨t', l₁, m, l₂, iHi, hcarve, hvalid, hiHi, hsplit, hfLo, hfHi⟩ := split_returns h hroom hr
  -- Cutting leaves one segment for the range, so the first found there is the last.
  obtain ⟨r₁, s', r₂, hcarve', hstart, hstop, hkind'⟩ :=
    carve_inside h.tiles hs hlo (show a ≤ a + len - 1 by omega) hhi
  have heq : l₁ ++ (m ++ l₂) = r₁ ++ s' :: r₂ := hcarve.symm.trans hcarve'
  have htiles : Tiles 0 (r₁ ++ s' :: r₂) (2 ^ 64) := heq ▸ hvalid.tiles
  rw [heq, findNsegmentIdx_eq htiles (by omega) (by omega)] at hfLo hfHi
  have hlen : r₁.length = l₁.length := ok.inj hfLo
  have hlast : r₁.length = iHi := ok.inj hfHi
  obtain ⟨s'', rfl⟩ : ∃ s'', m = [s''] := length_eq_one_iff.mp (by omega)
  obtain ⟨rfl, hrest⟩ := append_inj heq hlen.symm
  obtain ⟨rfl, rfl⟩ := List.cons.inj hrest
  obtain ⟨st', hpreen, hvalid'⟩ := preenNsegments_returns <| hvalid.map toClient_start toClient_stop
    toClient_fnIdx (fun s _ hs => saneNSegment_toClient hs) fun s _ hs => agree_toClient hs
  rw [map_singleton, singleton_append] at hpreen
  rw [changeOwner, hsplit, ok_bind]
  dsimp only
  rw [vgAssert_bind hlast, singleton_append, nsegmentAt_append, ok_bind,
    vgAssert_bind (by rw [hkind', hkind]), take_left, drop_succ_append, hpreen]
  exact hvalid'.returns

theorem changeOwnership_returns : Returns (st.amChangeOwnershipVToC a len) := by
  have hpos := hr.pos
  have hfits := hr.fits
  obtain ⟨l₁, s, l₂, hl, hlo, -, hfind⟩ := findNsegmentIdx_returns (x := a) h.tiles (by omega)
  have halign : ¬ (a % pageSize ≠ 0 ∨ len % pageSize ≠ 0) := by
    simp [hr.start_page, hr.len_page]
  rw [amChangeOwnershipVToC, if_neg hpos.ne', Nat.mod_eq_of_lt hfits, if_neg (by omega),
    if_neg halign, hfind, ok_bind, hl, nsegmentAt_append, ok_bind]
  by_cases hkind : s.kind.isValgrind = true
  · rw [if_neg (not_not.mpr hkind)]
    split_ifs with hend
    · exact h.returns
    · exact changeOwner_returns h hroom hr (by rw [hl]; simp) hlo (not_lt.mp hend) hkind
  · rw [if_pos hkind]
    exact h.returns

end Paged

theorem createReservation_returns {zone : Zone} (smode : ShrinkMode)
    (hstart : zone.start % pageSize = 0) (hlength : zone.length % pageSize = 0)
    (hextra : zone.extra.natAbs % pageSize = 0) :
    Returns (st.amCreateReservation zone.start zone.length smode zone.extra) := by
  have hpos := zone.pos
  have hlower := zone.lower
  have hupper := zone.upper
  -- The range with the extra space, in whole addresses.
  obtain ⟨start2, hstart2⟩ : ∃ start2 : ℕ, ((zone.start + min zone.extra 0) % 2 ^ 64).toNat = start2
      := ⟨_, rfl⟩
  obtain ⟨end2, hend2⟩ : ∃ end2 : ℕ,
      ((((zone.start + zone.length - 1 : ℕ) : ℤ) + max zone.extra 0) % 2 ^ 64).toNat = end2 :=
    ⟨_, rfl⟩
  have hbounds : start2 ≤ end2 ∧ end2 < 2 ^ 64 ∧ start2 % pageSize = 0
      ∧ (end2 + 1) % pageSize = 0 := by
    rw [pageSize] at *
    omega
  obtain ⟨hle, hfits, hpage, hpage'⟩ := hbounds
  obtain ⟨l₁, s, l₂, hl, hlo, hhi, hLo⟩ := findNsegmentIdx_returns (x := start2) h.tiles (by omega)
  obtain ⟨r₁, s', r₂, hl', hlo', hhi', hHi⟩ := findNsegmentIdx_returns h.tiles hfits
  have hsum : (zone.start + zone.length) % pageSize = 0 := by
    rw [pageSize] at *
    omega
  rw [amCreateReservation, zone_end, hstart2, hend2, vgAssert_bind hstart, vgAssert_bind hsum,
    vgAssert_bind hpage, vgAssert_bind hpage', hLo, ok_bind, hHi, ok_bind]
  split_ifs with hsame
  · exact h.returns
  rw [hl, nsegmentAt_append, ok_bind]
  have hseg : s' = s := by
    have happ := append_inj (hl.symm.trans hl') (not_not.mp hsame)
    exact (List.cons.inj happ.2).1.symm
  split_ifs with hkind
  · exact h.returns
  have hsane : saneNSegment st.names { kind := .resvn, start := zone.start
                                       stop := zone.start + zone.length - 1, smode := smode } := by
    refine saneNSegment_iff.mpr ⟨?_, hstart, ?_, rfl⟩
    · dsimp only
      omega
    · dsimp only
      rw [pageSize] at *
      omega
  obtain ⟨st', hadd, hvalid⟩ := addSegment_returns h (by dsimp only; omega) (by omega) hsane
    (by rintro ⟨⟩) (by rintro _ ⟨⟩)
  rw [vgAssert_bind hlo, vgAssert_bind (hseg ▸ hhi'), hadd]
  exact hvalid.returns

theorem extendMap_returns {sf : NSegment} {delta : ℕ}
    (hl : st.segs = l₁ ++ s :: sf :: l₂) (hlo : s.start ≤ x) (hhi : x ≤ s.stop)
    (hkind : s.kind.isClient) (hfree : sf.kind = .free) (hpos : 0 < delta)
    (hpage : delta % pageSize = 0) (hfit : s.stop + delta ≤ sf.stop)
    (hend : s.stop + 1 + delta < 2 ^ 64) (hsres : sres = none ∨ sres = some s.start) :
    Returns (st.amExtendMapClient x delta sres) := by
  have hs : s ∈ st.segs := by simp [hl]
  have hsf : sf ∈ st.segs := by simp [hl]
  have hadj : sf.start = s.stop + 1 := (neighbours (hl ▸ h.tiles)).2.1
  have hbound : sf.stop < 2 ^ 64 := (h.tiles.bounds sf hsf).2.2
  obtain ⟨hle, hstart, hstop, hsane⟩ := saneNSegment_iff.mp (h.sane s hs)
  have hfind : findNsegmentIdx st.segs x = .ok l₁.length := by
    rw [hl]
    exact findNsegmentIdx_eq (hl ▸ h.tiles) hlo hhi
  have hget : nsegmentAt st.segs l₁.length = .ok s := by rw [hl, nsegmentAt_append]
  have hnext : nsegmentAt st.segs (l₁.length + 1) = .ok sf := by
    rw [hl]
    simp [nsegmentAt]
  have hmod : (s.stop + 1) % 2 ^ 64 = s.stop + 1 := Nat.mod_eq_of_lt (by omega)
  have hwrap : (s.stop + 1 + delta) % 2 ^ 64 ≥ delta := by
    rw [Nat.mod_eq_of_lt hend]
    omega
  rw [amExtendMapClient, hfind, ok_bind, hget, ok_bind, vgAssert_bind hkind,
    vgAssert_bind ⟨hpos, hpage⟩]
  dsimp only
  rw [hmod, vgAssert_bind hwrap, hnext, ok_bind, vgAssert_bind hfree, vgAssert_bind hadj,
    vgAssert_bind (by omega)]
  rcases hsres with rfl | rfl
  · exact h.returns
  · have hseg : saneNSegment st.names { s with stop := s.stop + delta } := by
      refine saneNSegment_iff.mpr ⟨hle.trans (Nat.le_add_right _ _), hstart, ?_, hsane⟩
      change (s.stop + delta + 1) % pageSize = 0
      rw [pageSize] at *
      omega
    obtain ⟨st', hadd, hvalid⟩ := addSegment_returns h (show s.stop + delta < 2 ^ 64 by omega)
      (by omega) hseg (h.names.agree s hs) fun k hk => h.names.live hs hk
    obtain ⟨r₁, s', r₂, -, -, -, hfind'⟩ :=
      findNsegmentIdx_returns (x := x) hvalid.tiles (by omega)
    dsimp only
    rw [vgAssert_bind rfl, hadd, ok_bind, hfind']
    exact hvalid.returns

theorem relocateSegment_returns (lim : Limits) {oldAddr oldLen newAddr newLen : ℕ}
    (hold : PageRange oldAddr oldLen) (hnew : PageRange newAddr newLen) {seg : NSegment}
    (hs : seg ∈ st.segs) :
    Returns (st.relocateSegment lim seg oldAddr oldLen newAddr newLen) := by
  have hoPos := hold.pos
  have hoFits := hold.fits
  have hnPos := hnew.pos
  have hnFits := hnew.fits
  obtain ⟨d₁, hd₁⟩ := anyTsInRange_returns h.tiles hold
  obtain ⟨d₂, hd₂⟩ := anyTsInRange_returns h.tiles hnew
  obtain ⟨d, hd⟩ : ∃ d, anyTsInRanges st.segs oldAddr oldLen newAddr newLen = .ok d := by
    rw [anyTsInRanges, hd₁, ok_bind]
    split_ifs
    · exact ⟨true, rfl⟩
    · exact ⟨d₂, hd₂⟩
  obtain ⟨-, -, -, hsane⟩ := saneNSegment_iff.mp (h.sane seg hs)
  have hsane₁ : saneNSegment st.names (relocated seg oldAddr newAddr newLen) := by
    refine saneNSegment_iff.mpr ⟨?_, hnew.start_page, hnew.stop_page,
      saneKind_relocated hsane oldAddr newAddr newLen⟩
    change newAddr ≤ newAddr + newLen - 1
    omega
  obtain ⟨st₁, hadd₁, hvalid₁⟩ := addSegment_returns h
    (show newAddr + newLen - 1 < 2 ^ 64 by omega) (by omega) hsane₁ (h.names.agree seg hs)
    fun k hk => h.names.live hs hk
  -- The first segment may take two more slots; there is room for two more again.
  have hlen := (addSegment_segs h.tiles hadd₁).2.length_le
  obtain ⟨st₂, hadd₂, hvalid₂⟩ := addPlain_returns hvalid₁ (by omega)
    { kind := relocateHoleKind lim oldAddr, start := oldAddr, stop := oldAddr + oldLen - 1 } hold rfl
    rfl (by rw [relocateHoleKind]; split_ifs <;> rfl) (by rw [relocateHoleKind]; split_ifs <;> rfl)
    rfl
  rw [relocateSegment, hd, ok_bind, hadd₁, ok_bind, hadd₂]
  exact hvalid₂.returns

theorem relocate_returns (lim : Limits) {oldAddr oldLen newAddr newLen : ℕ}
    (hold : PageRange oldAddr oldLen) (hnew : PageRange newAddr newLen)
    (hsres : sres = none ∨ sres = some newAddr) :
    Returns (st.amRelocateNooverlapClient lim oldAddr oldLen newAddr newLen sres) := by
  have hoPos := hold.pos
  have hoFits := hold.fits
  have hnPos := hnew.pos
  have hnFits := hnew.fits
  have halign : ¬ (oldAddr % pageSize ≠ 0 ∨ oldLen % pageSize ≠ 0 ∨ newAddr % pageSize ≠ 0
      ∨ newLen % pageSize ≠ 0) := by
    simp [hold.start_page, hold.len_page, hnew.start_page, hnew.len_page]
  obtain ⟨l₁, seg, l₂, hl, -, -, hLo⟩ := findNsegmentIdx_returns (x := oldAddr) h.tiles (by omega)
  obtain ⟨r₁, s', r₂, -, -, -, hHi⟩ :=
    findNsegmentIdx_returns (x := oldAddr + oldLen - 1) h.tiles (by omega)
  have hget : nsegmentAt st.segs l₁.length = .ok seg := by rw [hl, nsegmentAt_append]
  rw [amRelocateNooverlapClient, if_neg (by omega), if_neg halign, Nat.mod_eq_of_lt hoFits,
    Nat.mod_eq_of_lt hnFits, if_neg (by omega)]
  split_ifs with hover
  · rw [hLo, ok_bind, hHi, ok_bind]
    split_ifs
    · exact h.returns
    rw [hget, ok_bind]
    split_ifs
    · rcases hsres with rfl | rfl
      · exact h.returns
      · dsimp only
        rw [vgAssert_bind rfl]
        exact relocateSegment_returns h hroom lim hold hnew (by simp [hl])
    · exact h.returns
  · exact h.returns

end Roomy

/-- **An operation that meets its conditions returns.** -/
theorem step_returns (h : Valid g st) {op : Op} (hop : Ready st op) (lim : Limits) :
    Returns (st.step lim op) := by
  obtain ⟨hmeets, hroom⟩ := hop
  cases op with
  | mmap a len prot flags offset fd =>
    obtain ⟨hr, hoff, hsame⟩ := hmeets
    exact (mmap_returns h hroom hr prot flags hoff hsame).reply _
  | shmat a len prot => exact (shmat_returns h hroom hmeets prot).reply _
  | mprotect start len prot => exact (mprotect_returns h hroom hmeets prot).reply _
  | munmap start len => exact (munmap_returns h hroom hmeets lim).reply _
  | munmapClient start len sres => exact munmapClient_returns h hroom hmeets lim sres
  | changeOwnership start len => exact (changeOwnership_returns h hroom hmeets).reply (⟨·, false⟩)
  | setHasT addr =>
    obtain ⟨s, hs, hlo, hhi, hkind⟩ := hmeets
    obtain ⟨st', hok, hvalid⟩ := setHasT_returns h hs hlo hhi hkind
    rw [step, hok]
    exact hvalid.returns
  | createReservation zone smode =>
    obtain ⟨hstart, hlength, hextra⟩ := hmeets
    exact (createReservation_returns h hroom smode hstart hlength hextra).reply (⟨·, false⟩)
  | extendReservation addr delta sres =>
    obtain ⟨⟨s, hs, hlo, hhi, hkind⟩, hpage⟩ := hmeets
    obtain ⟨l₁, l₂, hl⟩ := append_of_mem hs
    obtain ⟨i, o, st', hok, hchange, hnames⟩ :=
      extendReservation_returns hl hlo hhi hkind hpage sres lim h.tiles
    rw [step, hok]
    exact (h.extended hchange hnames).returns
  | extendMap addr delta sres =>
    obtain ⟨l₁, s, sf, l₂, hl, hlo, hhi, hkind, hfree, hpos, hpage, hfit, hend, hsres⟩ := hmeets
    exact (extendMap_returns h hroom hl hlo hhi hkind hfree hpos hpage hfit hend hsres).reply
      (⟨·.isSome, false⟩)
  | relocate oldAddr oldLen newAddr newLen sres =>
    obtain ⟨hold, hnew, hsres⟩ := hmeets
    exact relocate_returns h hroom lim hold hnew hsres

end

/-! ## No neighbours can be merged -/

section

variable {lim : Limits} {l l' l₁ l₂ : List NSegment} {s s' : NSegment} {op : Op} {r : Reply}

/-- Neighbours are left to merge only if they are of different sorts. -/
abbrev Canonical (l : List NSegment) : Prop := l.IsChain fun s1 s2 => merge s1 s2 = none

theorem canonical_congr (h : Canonical (l₁ ++ s :: l₂)) (hfst : ∀ r, joins s' r = joins s r)
    (hsnd : ∀ r, joins r s' = joins r s) : Canonical (l₁ ++ s' :: l₂) := by
  simp only [Canonical, merge_eq_none, isChain_append, isChain_cons, head?_cons,
    mem_some_iff, forall_eq', hfst, hsnd] at h ⊢
  exact h

/-- Only for files does it matter where a segment starts. -/
theorem joins_start {q : NSegment} (hs : s.kind.isFile = false) (c : ℕ) :
    joins { s with start := c } q = joins s q ∧ joins q { s with start := c } = joins q s := by
  by_cases hq : q.kind = s.kind
  · cases hk : s.kind <;> simp_all [joins, samePerms, isFile]
  · simp [joins, hq, Ne.symm hq]

theorem canonical_resize {b c : ℕ} (h : Canonical (l₁ ++ s :: s' :: l₂))
    (hs' : s'.kind.isFile = false) :
    Canonical (l₁ ++ { s with stop := b } :: { s' with start := c } :: l₂) := by
  have hstop : Canonical (l₁ ++ { s with stop := b } :: s' :: l₂) :=
    canonical_congr h (fun _ => rfl) fun _ => rfl
  rw [append_cons] at hstop ⊢
  exact canonical_congr hstop (fun _ => (joins_start hs' c).1) fun _ => (joins_start hs' c).2

/-- **Every operation leaves neighbours that cannot be merged.** -/
theorem Change.canonical (hc : Change lim l op r l') (h : Canonical l) : Canonical l' := by
  cases hc with
  | failed | mprotectNone | munmapNone | munmapClientNone | changeOwnershipNone | extendNone =>
    exact h
  | mmapAnon _ _ hadd | mmapFile _ _ hadd | shmat _ hadd | munmap _ hadd | munmapClient _ hadd
  | createReservation _ _ _ _ hadd | extendMap _ _ _ _ _ _ _ hadd
  | relocate _ _ _ _ _ _ _ _ _ hadd => exact Replaces.canonical hadd
  | mprotect _ hrep | changeOwnership _ _ _ _ _ hrep => exact hrep.canonical
  | setHasT hl =>
    subst hl
    exact canonical_congr h (fun _ => rfl) fun _ => rfl
  | extendForwards hl _ _ _ hR =>
    subst hl
    exact canonical_resize h (by rw [hR]; rfl)
  | extendBackwards hl _ _ hA =>
    subst hl
    exact canonical_resize h (by rw [hA]; rfl)

end

/-! ## The refinement -/

/-- Sane segments whose names are counted. -/
structure WellFormed (st : Aspacem) : Prop where
  sane : ∀ s ∈ st.segs, saneNSegment st.names s
  wf : st.names.Wf
  backs : st.names.Backs (refsOf st.segs)

/-- The segments of a file have one name. -/
def OneName (l : List NSegment) : Prop :=
  ∀ s ∈ l, ∀ s' ∈ l, s.kind.isFile → s'.kind.isFile → s.dev = s'.dev → s.ino = s'.ino →
    s.fnIdx = s'.fnIdx

/-- The array is a partition of the address space in which `maybe_merge_nsegments` merges no
neighbours, and says of every address what the page map says. -/
structure Represents (st : Aspacem) (f : PageMap) : Prop where
  tiles : Tiles 0 st.segs (2 ^ 64)
  unmerged : st.segs.IsChain fun s1 s2 =>
    maybeMergeNsegments st.names s1 s2 = .ok (none, st.names)
  facts : ∀ s ∈ st.segs, ∀ x, s.start ≤ x → x ≤ s.stop → s.facts x = f x

section

variable {lim : Limits} {st st' : Aspacem} {f f' : PageMap} {g : ℕ → ℕ → Option ℕ}

theorem exists_agree (h : OneName l) : ∃ g, ∀ s ∈ l, Agree g s := by
  refine ⟨fun d i => (l.find? fun s => s.kind.isFile && s.dev = d && s.ino = i).bind (·.fnIdx),
    fun s hs hf => ?_⟩
  obtain ⟨s', hfind⟩ : ∃ s', (l.find? fun s' => s'.kind.isFile && s'.dev = s.dev
      && s'.ino = s.ino) = some s' := by
    rw [← isSome_iff_exists, find?_isSome]
    exact ⟨s, hs, by simp [hf]⟩
  have hs' := find?_some hfind
  simp only [Bool.and_eq_true, decide_eq_true_eq] at hs'
  dsimp only
  rw [hfind, bind_some]
  exact h s hs s' (mem_of_find?_eq_some hfind) hf hs'.1.1 hs'.1.2.symm hs'.2.symm

theorem unmerged_iff (h : Tiles 0 st.segs (2 ^ 64)) :
    (st.segs.IsChain fun s1 s2 => maybeMergeNsegments st.names s1 s2 = .ok (none, st.names))
      ↔ Canonical st.segs := by
  refine h.isChain_iff fun s1 s2 h1 hadj h2 hfit => ?_
  have hfit : s2.stop < 2 ^ 64 := hfit
  rw [maybeMergeNsegments_eq st.names h1 h2 hadj hfit]
  cases merge s1 s2 with
  | none => simp
  | some u =>
    refine iff_of_false (fun h => ?_) nofun
    cases hn : mergeNames st.names s1 with
    | error e | ok t => simp [hn, Except.map] at h

/-- A valid array of which no neighbours can be merged stands for the facts of its segments. -/
theorem represents_iff (h : Valid g st) :
    Represents st f ↔ Canonical st.segs ∧ Denotes view st.segs f := by
  have hview : ∀ s ∈ st.segs, ∀ x, s.view x = s.facts x := fun s hs => view_eq_facts (h.sane s hs)
  refine ⟨fun hrep => ⟨(unmerged_iff h.tiles).mp hrep.unmerged, fun s hs x h₁ h₂ => ?_⟩,
    fun hden => ⟨h.tiles, (unmerged_iff h.tiles).mpr hden.1, fun s hs x h₁ h₂ => ?_⟩⟩
  · rw [hview s hs]
    exact hrep.facts s hs x h₁ h₂
  · rw [← hview s hs]
    exact hden.2 s hs x h₁ h₂

/-- An operation that meets its conditions returns, and has its effect on the page map. -/
theorem step_refines (h : Valid g st) (hrep : Represents st f) {op : Op} (hop : Ready st op) :
    ∃ r st' f', st.step lim op = .ok (r, st') ∧ Effect lim op r f f'
      ∧ ∃ g', Valid g' st' ∧ Represents st' f' := by
  obtain ⟨hcan, hden⟩ := (represents_iff h).mp hrep
  obtain ⟨r, st', g', hok, hvalid⟩ := step_returns h hop lim
  have hc := step_change h.tiles hok
  obtain ⟨f', heff, hden'⟩ := hc.effect h.tiles hden
  exact ⟨r, st', f', hok, heff, g', hvalid, (represents_iff hvalid).mpr ⟨hc.canonical hcan, hden'⟩⟩

/-- **The segment array refines a page map**: from a valid array in which the segments of a file
have one name, every run whose operations meet their conditions returns, and leads to an array that
stands for the page map the operations lead to. -/
theorem segmentArray_refines_pageMap {ops : List Op} (hst : WellFormed st)
    (hone : OneName st.segs) (hrep : Represents st f)
    (hops : Refinement.Meets (Aspacem.step lim) Ready st ops) :
    ∃ rs st' f', Refinement.run (Aspacem.step lim) st ops = .ok (rs, st')
      ∧ Refinement.Effects (Effect lim) ops rs f f' ∧ Represents st' f' := by
  obtain ⟨g, hg⟩ := exists_agree hone
  have hvalid : Valid g st := ⟨hrep.tiles, hst.sane, hst.wf, hst.backs, hg⟩
  have hstep : ∀ ⦃st f op⦄, (∃ g, Valid g st ∧ Represents st f) → Ready st op →
      ∃ r st' f', st.step lim op = .ok (r, st') ∧ Effect lim op r f f'
        ∧ ∃ g', Valid g' st' ∧ Represents st' f' := by
    rintro st f op ⟨g, h, hrep⟩ hop
    exact step_refines h hrep hop
  obtain ⟨rs, st', f', hrun, heffs, -, -, hrep'⟩ :=
    Refinement.effects_run hstep ⟨g, hvalid, hrep⟩ hops
  exact ⟨rs, st', f', hrun, heffs, hrep'⟩

theorem wellFormed_unmapped : WellFormed unmapped where
  sane := sane_unmapped
  wf := wf_init
  backs k hk := by
    rw [unmapped, refsOf_cons, refsOf_nil, add_zero] at hk
    exact absurd hk (by simp [refs])

theorem represents_unmapped : Represents unmapped fun _ => {} where
  tiles := tiles_unmapped
  unmerged := isChain_singleton _
  facts s hs x _ _ := by
    obtain rfl := mem_singleton.mp hs
    rfl

theorem oneName_unmapped : OneName unmapped.segs := fun s hs s' hs' hf => by
  obtain rfl := mem_singleton.mp hs
  cases hf

/-- Two pages of a file are mapped, and the second is made executable. -/
theorem segmentArray_refines_pageMap_mprotect :
    Refinement.Meets (Aspacem.step ⟨0x1000, 2 ^ 47 - 1⟩) Ready unmapped
        [.mmap 0x10000 0x2000 1 0x2 0 ⟨some (1, 1, 0), some ⟨['/', 'a'], by decide⟩⟩,
          .mprotect 0x11000 0x1000 5]
    ∧ ∃ rs st' f', Refinement.run (Aspacem.step ⟨0x1000, 2 ^ 47 - 1⟩) unmapped
        [.mmap 0x10000 0x2000 1 0x2 0 ⟨some (1, 1, 0), some ⟨['/', 'a'], by decide⟩⟩,
          .mprotect 0x11000 0x1000 5] = .ok (rs, st')
      ∧ Refinement.Effects (Effect ⟨0x1000, 2 ^ 47 - 1⟩)
        [.mmap 0x10000 0x2000 1 0x2 0 ⟨some (1, 1, 0), some ⟨['/', 'a'], by decide⟩⟩,
          .mprotect 0x11000 0x1000 5] rs (fun _ => {}) f'
      ∧ Represents st' f' := by
  refine (and_iff_left_of_imp
    (segmentArray_refines_pageMap wellFormed_unmapped oneName_unmapped represents_unmapped)).mpr ?_
  refine ⟨⟨⟨⟨by decide, by decide, by decide, by decide⟩, by decide, fun _ s hs hf => ?_⟩,
    by decide⟩, fun r st hstep => ⟨⟨⟨by decide, by decide, by decide, by decide⟩, ?_⟩,
    fun _ _ _ => trivial⟩⟩
  · obtain rfl := mem_singleton.mp hs
    cases hf
  · have hlen : ((unmapped.step ⟨0x1000, 2 ^ 47 - 1⟩ (.mmap 0x10000 0x2000 1 0x2 0
        ⟨some (1, 1, 0), some ⟨['/', 'a'], by decide⟩⟩)).toOption.map (·.2.segs.length))
        = some 3 := by
      decide +kernel
    rw [hstep] at hlen
    have hlen : st.segs.length = 3 := some.inj hlen
    rw [hlen]
    decide

/-- **A file with two names breaks it**: two parts of one file are mapped next to each other under
different names, so that the segments are merged.  That gives up the first name, which the merged
segment keeps, and unmapping a part of it fails an assertion. -/
theorem two_names_abort :
    WellFormed unmapped ∧ OneName unmapped.segs ∧ (Represents unmapped fun _ => {})
    ∧ Refinement.run (Aspacem.step ⟨0x1000, 2 ^ 47 - 1⟩) unmapped
        [.mmap 0x10000 0x1000 1 0x2 0 ⟨some (1, 1, 0), some ⟨['/', 'a'], by decide⟩⟩,
          .mmap 0x11000 0x1000 1 0x2 0x1000 ⟨some (1, 1, 0), some ⟨['/', 'b'], by decide⟩⟩,
          .munmap 0x10000 0x1000] = .error .assertion := by
  exact ⟨wellFormed_unmapped, oneName_unmapped, represents_unmapped, by decide +kernel⟩

end

end Valgrind.Aspacemgr
