import Valgrind.Aspacemgr.NameCounts
import Valgrind.Aspacemgr.Steps

/-!
# Aspacemgr/PageMap — the segment array stands for a map from addresses to facts

An abstract page map says of every address what is there.  An operation that succeeds overwrites it
on the pages it affects, and one that fails leaves it (`Effect`).

**Effects** (`Change.effect`): what an operation does to the array is its effect on the page map the
array stands for.
-/

namespace Valgrind.Aspacemgr

open NSegment Tiling Aspacem Denotes SegKind Nat Op

/-! ## Page maps -/

namespace PageFacts

/-- The facts `d` bytes further on in the same mapping. -/
def shift (p : PageFacts) (d : ℕ) : PageFacts :=
  if p.kind.isFile then { p with offset := (p.offset + d) % 2 ^ 64 } else p

/-- Permissions are those of what is mapped. -/
def setPerms (prot : ℕ) (p : PageFacts) : PageFacts :=
  if p.kind.isMapped then
    { p with hasR := protRead prot, hasW := protWrite prot, hasX := protExec prot }
  else p

/-- What belongs to Valgrind becomes the client's. -/
def toClient (p : PageFacts) : PageFacts :=
  match p.kind with
  | .fileV => { p with kind := .fileC }
  | .anonV => { p with kind := .anonC }
  | _ => p

/-- A new anonymous mapping, or shared memory. -/
def plain (kind : SegKind) (prot : ℕ) : PageFacts where
  kind := kind
  hasR := protRead prot
  hasW := protWrite prot
  hasX := protExec prot

/-- A new mapping of a file. -/
def file (prot offset : ℕ) (fd : FdInfo) : PageFacts where
  kind := .fileC
  hasR := protRead prot
  hasW := protWrite prot
  hasX := protExec prot
  dev := fd.stat.elim 0 (·.1)
  ino := fd.stat.elim 0 (·.2.1)
  offset := offset

end PageFacts

/-- What is at every address. -/
abbrev PageMap := ℕ → PageFacts

/-- The map with new facts on the `len` addresses from `lo` on. -/
def PageMap.overwrite (f : PageMap) (lo len : ℕ) (v : ℕ → PageFacts) : PageMap :=
  fun x => if lo ≤ x ∧ x < lo + len then v x else f x

/-- What an operation that succeeded does to a page map.  A mapping that is extended grows up to, or
down to, where its neighbour starts. -/
def Op.effect (lim : Limits) (f f' : PageMap) : Op → Prop
  | .mmap a len prot flags offset fd =>
    f' = f.overwrite a len fun x =>
      if mapAnonymous flags then .plain .anonC prot
      else (PageFacts.file prot offset fd).shift (x - a)
  | .shmat a len prot => f' = f.overwrite a len fun _ => .plain .shmC prot
  | .mprotect start len prot => f' = f.overwrite start len fun x => (f x).setPerms prot
  | .munmap start len =>
    f' = f.overwrite start len fun _ => { kind := holeKind lim start (start + len - 1) }
  | .munmapClient start len _ => f' = f.overwrite start (pgroundup len) fun _ =>
      { kind := holeKind lim start (start + pgroundup len - 1) }
  | .changeOwnership start len => f' = f.overwrite start len fun x => (f x).toClient
  | .setHasT _ => f' = f
  | .createReservation zone _ => f' = f.overwrite zone.start zone.length fun _ => { kind := .resvn }
  | .extendReservation addr delta _ =>
    if delta = 0 then f' = f
    else if 0 < delta then
      ∃ e, addr < e ∧ (∀ x, addr ≤ x → x < e → (f x).kind = .anonC) ∧ (f e).kind = .resvn
        ∧ f' = f.overwrite e delta.natAbs fun _ => f addr
    else
      ∃ e, e ≤ addr ∧ (∀ x, e ≤ x → x ≤ addr → (f x).kind = .anonC) ∧ delta.natAbs < e
        ∧ (f (e - 1)).kind = .resvn
        ∧ f' = f.overwrite (e - delta.natAbs) delta.natAbs fun _ => f addr
  | .extendMap addr delta _ =>
    ∃ e, addr < e ∧ (∀ x, addr ≤ x → x < e → (f x).kind = (f addr).kind) ∧ (f e).kind = .free
      ∧ f' = f.overwrite e delta fun x => (f addr).shift (x - addr)
  | .relocate oldAddr oldLen newAddr newLen _ =>
    f' = (f.overwrite newAddr newLen fun x => (f oldAddr).shift (x - newAddr)).overwrite
      oldAddr oldLen fun _ => { kind := relocateHoleKind lim oldAddr }

/-- What an operation does to a page map: nothing, if it fails. -/
def Effect (lim : Limits) (op : Op) (r : Reply) (f f' : PageMap) : Prop :=
  if r.success then op.effect lim f f' else f' = f

/-! ## What segments say -/

section View

variable {s : NSegment} {x prot : ℕ}

theorem view_kind (s : NSegment) (x : ℕ) : (view s x).kind = s.kind := by
  rw [view]
  cases s.kind <;> rfl

theorem view_setPerms : view (s.setPerms prot) x = (view s x).setPerms prot := by
  rw [NSegment.setPerms, PageFacts.setPerms, view_kind]
  cases hk : s.kind <;> simp [view, hk, isMapped]

theorem view_toClient : view s.toClient x = (view s x).toClient := by
  rw [NSegment.toClient, PageFacts.toClient, view_kind]
  cases hk : s.kind <;> simp [view, hk]

/-- Further on in a segment. -/
theorem view_shift {y : ℕ} (hy : s.start ≤ y) (hx : y ≤ x) :
    view s x = (view s y).shift (x - y) := by
  rw [PageFacts.shift, view_kind]
  have hoff := offset_add s.offset hy hx
  cases hk : s.kind with
  | fileC | fileV => simp only [view, hk, isFile, if_true, hoff]
  | free | anonC | anonV | shmC | resvn => simp [view, hk, isFile]

/-- A segment that is not mapped says only so. -/
theorem view_hole {lim : Limits} {start stop start' stop' : ℕ} :
    view { kind := holeKind lim start stop, start := start', stop := stop' } x
      = { kind := holeKind lim start stop } := by
  rw [holeKind]
  split_ifs <;> rfl

/-- An anonymous mapping says the same of all its addresses. -/
theorem view_anonC (hs : s.kind = .anonC) (start stop x y : ℕ) :
    view { s with start := start, stop := stop } x = view s y := by
  simp [view, hs]

end View

/-! ## The effect of a change -/

section Effect

variable {l l' l₁ l₂ : List NSegment} {f : PageMap} {seg segf : NSegment}
  {lo hi len addr delta x : ℕ}
  {v : ℕ → PageFacts} {lim : Limits} {op : Op} {r : Reply}

theorem overwrite_of_mem (h₁ : lo ≤ x) (h₂ : x < lo + len) : f.overwrite lo len v x = v x :=
  if_pos ⟨h₁, h₂⟩

theorem overwrite_of_not_mem (h : x < lo ∨ lo + len ≤ x) : f.overwrite lo len v x = f x :=
  if_neg (by omega)

@[simp] theorem overwrite_zero : f.overwrite lo 0 v = f := by
  funext x
  exact overwrite_of_not_mem (lt_or_ge x lo)

/-- A new segment overwrites the map on its range. -/
theorem Added.denotes (h : Added seg l l') (hf : Denotes view l f) (hlo : seg.start = lo)
    (hhi : seg.stop = lo + len - 1) (hpos : 0 < len)
    (hv : ∀ x, lo ≤ x → x < lo + len → view seg x = v x) :
    Denotes view l' (f.overwrite lo len v) := by
  refine Replaces.denotes h hf (fun x hx => overwrite_of_not_mem (by omega)) fun m _ _ =>
    List.forall_mem_singleton.mpr fun x hx hx' => ?_
  have hx : seg.start ≤ x := hx
  have hx' : x ≤ seg.stop := hx'
  rw [overwrite_of_mem (by omega) (by omega), hv x (by omega) (by omega)]

/-- Segments that are updated in place update the map. -/
theorem Replaces.denotes_map {g : NSegment → NSegment} {v' : PageFacts → PageFacts}
    (h : Replaces lo hi (List.map g) l l') (hf : Denotes view l f) (hhi : hi + 1 = lo + len)
    (hstart : ∀ s, (g s).start = s.start) (hstop : ∀ s, (g s).stop = s.stop)
    (hv : ∀ s x, view (g s) x = v' (view s x)) :
    Denotes view l' (f.overwrite lo len fun x => v' (f x)) := by
  refine Replaces.denotes h hf (fun x hx => overwrite_of_not_mem (by omega)) fun m hm hfm s hs => ?_
  obtain ⟨s', hs', rfl⟩ := List.mem_map.mp hs
  intro x hx hx'
  have hx : s'.start ≤ x := hstart s' ▸ hx
  have hx' : x ≤ s'.stop := hstop s' ▸ hx'
  have hb := hm.bounds s' hs'
  have hb₁ : lo ≤ s'.start := hb.1
  have hb₂ : s'.stop < hi + 1 := hb.2.2
  rw [overwrite_of_mem (by omega) (by omega), hv, hfm s' hs' x hx hx']

/-- What the map says of a segment's addresses. -/
theorem denotes_at {s : NSegment} (hf : Denotes view l f) (hs : s ∈ l) (h₁ : s.start ≤ x)
    (h₂ : x ≤ s.stop) : f x = view s x := (hf s hs x h₁ h₂).symm

/-- Moving the boundary between neighbours changes the map on their addresses only. -/
theorem denotes_resize {s r : NSegment} {b c : ℕ} {f' : PageMap}
    (h : Tiles 0 (l₁ ++ s :: r :: l₂) (2 ^ 64)) (hf : Denotes view (l₁ ++ s :: r :: l₂) f)
    (hout : ∀ x, x < s.start ∨ r.stop < x → f x = f' x)
    (hs : ∀ x, s.start ≤ x → x ≤ b → view { s with stop := b } x = f' x)
    (hr : ∀ x, c ≤ x → x ≤ r.stop → view { r with start := c } x = f' x) :
    Denotes view (l₁ ++ { s with stop := b } :: { r with start := c } :: l₂) f' := by
  obtain ⟨p, h₁, hp, -, -, -, h₂⟩ := tiles_append.mp h
  obtain ⟨hf₁, hfr⟩ := append.mp hf
  have hf₂ := (cons.mp (cons.mp hfr).2).2
  exact append.mpr ⟨hf₁.congr h₁ fun x _ hx => hout x (.inl (hx.trans_eq hp.symm)),
    cons.mpr ⟨hs, cons.mpr ⟨hr, hf₂.congr h₂ fun x hx _ => hout x (.inr hx)⟩⟩⟩

theorem denotes_extendForwards {sA sR : NSegment}
    (h : Tiles 0 (l₁ ++ sA :: sR :: l₂) (2 ^ 64)) (hf : Denotes view (l₁ ++ sA :: sR :: l₂) f)
    (hlo : sA.start ≤ addr) (hhi : addr ≤ sA.stop) (hA : sA.kind = .anonC) (hR : sR.kind = .resvn)
    (hfit : delta + pageSize ≤ sR.stop - sR.start + 1) :
    Denotes view (l₁ ++ { sA with stop := sA.stop + delta }
        :: { sR with start := sR.start + delta } :: l₂)
      (f.overwrite (sA.stop + 1) delta fun _ => f addr) := by
  obtain ⟨-, hadj, -⟩ := neighbours h
  rw [pageSize] at hfit
  refine denotes_resize h hf (fun x hx => (overwrite_of_not_mem (by omega)).symm)
    (fun x hx hx' => ?_) fun x hx hx' => ?_
  · by_cases hin : x ≤ sA.stop
    · rw [overwrite_of_not_mem (by omega), denotes_at (s := sA) hf (by simp) hx hin]
      exact view_anonC hA _ _ x x
    · rw [overwrite_of_mem (by omega) (by omega), denotes_at (s := sA) hf (by simp) hlo hhi]
      exact view_anonC hA _ _ x addr
  · rw [overwrite_of_not_mem (by omega), denotes_at (s := sR) hf (by simp) (by omega) hx']
    simp [view, hR]

theorem denotes_extendBackwards {sA sR : NSegment}
    (h : Tiles 0 (l₁ ++ sR :: sA :: l₂) (2 ^ 64)) (hf : Denotes view (l₁ ++ sR :: sA :: l₂) f)
    (hlo : sA.start ≤ addr) (hhi : addr ≤ sA.stop) (hA : sA.kind = .anonC) (hR : sR.kind = .resvn)
    (hfit : delta + pageSize ≤ sR.stop - sR.start + 1) :
    Denotes view (l₁ ++ { sR with stop := sR.stop - delta }
        :: { sA with start := sA.start - delta } :: l₂)
      (f.overwrite (sA.start - delta) delta fun _ => f addr) := by
  obtain ⟨hle, hadj, -⟩ := neighbours h
  rw [pageSize] at hfit
  refine denotes_resize h hf (fun x hx => (overwrite_of_not_mem (by omega)).symm)
    (fun x hx hx' => ?_) fun x hx hx' => ?_
  · rw [overwrite_of_not_mem (by omega), denotes_at (s := sR) hf (by simp) hx (by omega)]
    simp [view, hR]
  · by_cases hin : sA.start ≤ x
    · rw [overwrite_of_not_mem (by omega), denotes_at (s := sA) hf (by simp) hin hx']
      exact view_anonC hA _ _ x x
    · rw [overwrite_of_mem (by omega) (by omega), denotes_at (s := sA) hf (by simp) hlo hhi]
      exact view_anonC hA _ _ x addr

/-- A mapping grows into free space: it says of the new addresses what it says of the old ones,
further on… -/
theorem denotes_extendMap
    (hf : Denotes view (l₁ ++ seg :: segf :: l₂) f)
    (hlo : seg.start ≤ addr) (hhi : addr ≤ seg.stop)
    (hadd : Added { seg with stop := seg.stop + delta } (l₁ ++ seg :: segf :: l₂) l') :
    Denotes view l'
      (f.overwrite (seg.stop + 1) delta fun x => (f addr).shift (x - addr)) := by
  have hden : Denotes view l'
      (f.overwrite seg.start (seg.stop + delta + 1 - seg.start) (view seg)) :=
    hadd.denotes hf rfl (show seg.stop + delta = _ by omega) (by omega) fun _ _ _ => rfl
  refine hden.congr hadd.tiles fun x _ _ => ?_
  by_cases hin : seg.start ≤ x ∧ x ≤ seg.stop
  · rw [overwrite_of_mem hin.1 (by omega), overwrite_of_not_mem (by omega),
      denotes_at (s := seg) hf (by simp) hin.1 hin.2]
  by_cases hext : seg.stop < x ∧ x ≤ seg.stop + delta
  · rw [overwrite_of_mem (by omega) (by omega), overwrite_of_mem (by omega) (by omega),
      denotes_at (s := seg) hf (by simp) hlo hhi, view_shift hlo (by omega)]
  · rw [overwrite_of_not_mem (by omega), overwrite_of_not_mem (by omega)]

/-- …and the new addresses are the first free ones behind it. -/
theorem effect_extendMap {sres : Option ℕ}
    (h : Tiles 0 (l₁ ++ seg :: segf :: l₂) (2 ^ 64)) (hf : Denotes view (l₁ ++ seg :: segf :: l₂) f)
    (hlo : seg.start ≤ addr) (hhi : addr ≤ seg.stop) (hfree : segf.kind = .free) :
    Effect lim (.extendMap addr delta sres) ⟨true, false⟩ f
      (f.overwrite (seg.stop + 1) delta fun x => (f addr).shift (x - addr)) := by
  obtain ⟨-, hadj, hle⟩ := neighbours h
  refine ⟨seg.stop + 1, lt_succ_of_le hhi, fun x hx hx' => ?_, ?_, rfl⟩
  · rw [denotes_at (s := seg) hf (by simp) (hlo.trans hx) (le_of_lt_succ hx'),
      denotes_at (s := seg) hf (by simp) hlo hhi, view_kind, view_kind]
  · rw [← hadj, denotes_at (s := segf) hf (by simp) le_rfl hle,
      view_kind, hfree]

/-- A relocated segment says at its new place what the old one said. -/
theorem view_relocated (hkind : seg.kind.isClient) (oldAddr newAddr newLen x : ℕ) :
    view (relocated seg oldAddr newAddr newLen) x = (view seg oldAddr).shift (x - newAddr) := by
  rw [PageFacts.shift, view_kind]
  cases hk : seg.kind with
  | fileC => simp only [view, relocated, hk, isFile, if_true]
  | anonC | shmC => simp [view, relocated, hk, isFile]
  | free | anonV | fileV | resvn => simp [hk, isClient] at hkind

/-- **What an operation does to the segments is its effect on the page map they stand for.** -/
theorem Change.effect (hc : Change lim l op r l') (h : Tiles 0 l (2 ^ 64)) (hf : Denotes view l f) :
    ∃ f', Effect lim op r f f' ∧ Denotes view l' f' := by
  cases hc with
  | failed => exact ⟨f, rfl, hf⟩
  | mprotectNone | munmapNone | changeOwnershipNone => exact ⟨f, by simp [Effect, effect], hf⟩
  | munmapClientNone =>
    refine ⟨f, ?_, hf⟩
    simp [Effect, effect, show pgroundup 0 = 0 by decide]
  | extendNone => exact ⟨f, by simp [Effect, effect], hf⟩
  | mmapAnon hanon hd hadd =>
    refine ⟨_, rfl, hadd.denotes hf rfl rfl (anyTsInRange_ok h hd).1 fun x _ _ => ?_⟩
    rw [if_pos hanon]
    rfl
  | mmapFile hfile hd hadd =>
    refine ⟨_, rfl, hadd.denotes hf rfl rfl (anyTsInRange_ok h hd).1 fun x _ _ => ?_⟩
    rw [if_neg (by simp [hfile])]
    rfl
  | shmat hd hadd =>
    exact ⟨_, rfl, hadd.denotes hf rfl rfl (anyTsInRange_ok h hd).1 fun x _ _ => rfl⟩
  | munmap hd hadd | munmapClient hd hadd =>
    exact ⟨_, rfl, hadd.denotes hf rfl rfl (anyTsInRange_ok h hd).1 fun x _ _ => view_hole⟩
  | mprotect hd hrep =>
    have hpos := (anyTsInRange_ok h hd).1
    exact ⟨_, rfl, hrep.denotes_map hf (by omega) (setPerms_start _) (setPerms_stop _)
      fun _ _ => view_setPerms⟩
  | changeOwnership hpos hs hlo hhi hkind hrep =>
    exact ⟨_, rfl, hrep.denotes_map hf (by omega) toClient_start toClient_stop
      fun _ _ => view_toClient⟩
  | setHasT hl =>
    subst hl
    obtain ⟨hf₁, hfr⟩ := append.mp hf
    obtain ⟨hfs, hf₂⟩ := cons.mp hfr
    exact ⟨f, rfl, append.mpr ⟨hf₁, cons.mpr ⟨hfs, hf₂⟩⟩⟩
  | createReservation hs hkind hlo hhi hadd =>
    rename_i zone smode s
    exact ⟨_, rfl, hadd.denotes hf rfl rfl zone.pos fun x _ _ => rfl⟩
  | extendForwards hl hlo hhi hA hR hpos hpage hfit =>
    rename_i addr delta sres l₁ sA sR l₂
    subst hl
    refine ⟨_, ?_, denotes_extendForwards h hf hlo hhi hA hR hfit⟩
    obtain ⟨-, hadj, hRle⟩ := neighbours h
    simp only [Effect, effect, if_true, if_neg hpos.ne', if_pos hpos]
    refine ⟨sA.stop + 1, lt_succ_of_le hhi, fun x hx hx' => ?_, ?_, rfl⟩
    · rw [denotes_at (s := sA) hf (by simp) (hlo.trans hx) (le_of_lt_succ hx'), view_kind, hA]
    · rw [← hadj, denotes_at (s := sR) hf (by simp) le_rfl hRle,
        view_kind, hR]
  | extendBackwards hl hlo hhi hA hR hneg hpage hfit =>
    rename_i addr delta sres l₁ sA sR l₂
    subst hl
    refine ⟨_, ?_, denotes_extendBackwards h hf hlo hhi hA hR hfit⟩
    obtain ⟨hRle, hadj, -⟩ := neighbours h
    rw [pageSize] at hfit
    simp only [Effect, effect, if_true, if_neg hneg.ne, if_neg (not_lt.mpr hneg.le)]
    refine ⟨sA.start, hlo, fun x hx hx' => ?_, by omega, ?_, rfl⟩
    · rw [denotes_at (s := sA) hf (by simp) hx (hx'.trans hhi), view_kind, hA]
    · rw [hadj, Nat.add_sub_cancel, denotes_at (s := sR) (x := sR.stop) hf (by simp) hRle le_rfl,
        view_kind, hR]
  | extendMap hl hlo hhi hkind hfree hpos hfit hadd =>
    rename_i addr delta sres seg segf l₁ l₂
    subst hl
    exact ⟨_, effect_extendMap h hf hlo hhi hfree, denotes_extendMap hf hlo hhi hadd⟩
  | relocate hs hlo hhi hkind hapart hd hold hnew hadd₁ hadd₂ =>
    rename_i oldAddr oldLen newAddr newLen sres seg d l₁
    have hfirst : f oldAddr = view seg oldAddr := denotes_at hf hs hlo (by omega)
    have hd₁ : Denotes view l₁
        (f.overwrite newAddr newLen fun x => (f oldAddr).shift (x - newAddr)) := by
      refine hadd₁.denotes hf rfl rfl hnew fun x _ _ => ?_
      rw [hfirst, view_relocated hkind]
    refine ⟨_, rfl, hadd₂.denotes hd₁ rfl rfl hold fun x _ _ => ?_⟩
    rw [relocateHoleKind]
    split_ifs <;> rfl

end Effect

end Valgrind.Aspacemgr
