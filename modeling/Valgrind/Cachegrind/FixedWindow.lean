import Valgrind.Foundations.Windows
import Valgrind.Cachegrind.WindowLoop

/-!
# Cachegrind/FixedWindow — what the fixed-window approach reports

In the fixed-window approach the result D1 cache is not used: every data reference goes to the four
shadow D1 caches, each with its own count of misses, and every `window_counter` references the
count of the best policy is added to the line counters, the counts are cleared and the caches of
the best policy are copied over the others.

The counts of a window that is still open at the end of the run are never added.  So the line
counters hold the misses of the complete windows (`Accounted`), and the sum over all windows exactly
if the best policy has no miss in the last one: its references all touch blocks that the shadow D1
caches, equal at the start of a window, held there (`fixed_window_iff`).
-/

open Hoare Windows List Nat

namespace Valgrind.Cachegrind

variable {L : Type} {opts : Options} {sh : Shape} {s s' u : Sim L} {m : CCRef L} {w size : ℕ}
  {C : CacheT2} {a : Addr} {r : Outcome} {rs cur : List Outcome} {d d' : D1Data} {tag : String}
  {kind : AccessKind}

/-! ## The data references of a run -/

section Record

variable [DecidableEq L] (opts)

/-- A data reference: which policies missed, and which one was the best so far in the window. -/
structure Outcome where
  addr : Addr
  size : ℕ
  missed : Fin 4 → Bool
  selected : Fin 4

/-- `cachesim_D1_doref`, observed. -/
def recordD1 (m : CCRef L) (a : Addr) (size : ℕ) : SimM L Outcome := do
  let s ← get
  cachesimD1Doref opts m a size
  let s' ← get
  return ⟨a, size, missedBy opts s a size, s'.indexMinMissesPolicy⟩

/-- A data helper, observed. -/
def recordData (tag : String) (kind : AccessKind) (n : InstrInfo L) (a : Addr) (size : ℕ) :
    SimM L (List Outcome) := do
  traceLine opts tag n.parent
  let r ← recordD1 opts ⟨n.parent, kind⟩ a (toUChar size)
  countAccess ⟨n.parent, kind⟩
  return [r]

/-- A call, observed. -/
def HelperCall.record : HelperCall L → SimM L (List Outcome)
  | .log1IrNoX1Dr n a size => do
    log1IrNoX0DCacheAccess opts n
    recordData opts "L" .dr n a size
  | .log1IrNoX1Dw n a size => do
    log1IrNoX0DCacheAccess opts n
    recordData opts "Lw" .dw n a size
  | .log0Ir1Dr n a size => recordData opts "L" .dr n a size
  | .log0Ir1Dw n a size => recordData opts "Lw" .dw n a size
  | c => do
    c.exec opts
    return []

/-- A run, observed. -/
def recordCalls : List (HelperCall L) → SimM L (List Outcome)
  | [] => return []
  | c :: calls => do
    let rs ← c.record opts
    let rest ← recordCalls calls
    return rs ++ rest

/-- The data references of a run, in order. -/
def outcomes (calls : List (HelperCall L)) (s : Sim L) : List Outcome :=
  match recordCalls opts calls s with
  | .error _ => []
  | .ok (rs, _) => rs

end Record

/-- The D1 misses of a window: those of the policy that is the best one at its end. -/
def windowMisses (rs : List Outcome) : ℕ :=
  match rs.getLast? with
  | none => 0
  | some r => rs.countP (·.missed r.selected)

/-! ## Observing changes nothing -/

section

variable [DecidableEq L] {n : InstrInfo L}

theorem recordD1_eq_ok_iff :
    recordD1 opts m a size s = .ok (r, s') ↔ cachesimD1Doref opts m a size s = .ok (⟨⟩, s')
      ∧ r = ⟨a, size, missedBy opts s a size, s'.indexMinMissesPolicy⟩ := by
  rw [recordD1, bind_of_ok (get_run s), bind_eq_ok_iff]
  constructor
  · rintro ⟨_, s₁, h, hpure⟩
    cases hpure
    exact ⟨h, rfl⟩
  · rintro ⟨h, rfl⟩
    exact ⟨⟨⟩, s', h, rfl⟩

/-- What a data helper does around its data reference. -/
theorem recordData_eq_ok_iff :
    recordData opts tag kind n a size s = .ok (rs, s') ↔
      ∃ r s₁ s₂, traceLine opts tag n.parent s = .ok (⟨⟩, s₁)
        ∧ recordD1 opts ⟨n.parent, kind⟩ a (toUChar size) s₁ = .ok (r, s₂)
        ∧ s' = { s₂ with lines := addCC ⟨n.parent, kind⟩ 1 0 0 s₂.lines } ∧ rs = [r] := by
  simp only [recordData, bind_eq_ok_iff]
  constructor
  · rintro ⟨_, s₁, h₁, r, s₂, h₂, _, s₃, h₃, h₄⟩
    cases h₃
    cases h₄
    exact ⟨r, s₁, s₂, h₁, h₂, rfl, rfl⟩
  · rintro ⟨r, s₁, s₂, h₁, h₂, rfl, rfl⟩
    exact ⟨⟨⟩, s₁, h₁, r, s₂, h₂, ⟨⟩, _, rfl, rfl⟩

theorem logData_eq_ok_iff : logData opts tag kind n a size s = .ok (⟨⟩, s')
      ↔ ∃ rs, recordData opts tag kind n a size s = .ok (rs, s') := by
  simp only [recordData_eq_ok_iff, recordD1_eq_ok_iff, logData, bind_eq_ok_iff]
  constructor
  · rintro ⟨_, s₁, h₁, _, s₂, h₂, h₃⟩
    cases h₃
    exact ⟨_, _, s₁, s₂, h₁, ⟨h₂, rfl⟩, rfl, rfl⟩
  · rintro ⟨_, _, s₁, s₂, h₁, ⟨h₂, rfl⟩, rfl, rfl⟩
    exact ⟨⟨⟩, s₁, h₁, ⟨⟩, s₂, h₂, rfl⟩

/-- …of a call… -/
theorem exec_eq_ok_iff (c : HelperCall L) :
    c.exec opts s = .ok (⟨⟩, s') ↔ ∃ rs, c.record opts s = .ok (rs, s') := by
  have hplain : ∀ prog : SimM L PUnit, prog s = .ok (⟨⟩, s')
      ↔ ∃ rs, (prog >>= fun _ => pure ([] : List Outcome)) s = .ok (rs, s') := by
    intro prog
    simp only [bind_eq_ok_iff]
    constructor
    · intro h
      exact ⟨[], ⟨⟩, s', h, rfl⟩
    · rintro ⟨rs, _, s₁, h, hpure⟩
      cases hpure
      exact h
  have hafter : ∀ (n : InstrInfo L) tag kind a size,
      (log1IrNoX0DCacheAccess opts n >>= fun _ => logData opts tag kind n a size) s = .ok (⟨⟩, s')
        ↔ ∃ rs, (log1IrNoX0DCacheAccess opts n >>= fun _ => recordData opts tag kind n a size) s
          = .ok (rs, s') := by
    intro n tag kind a size
    simp only [bind_eq_ok_iff, logData_eq_ok_iff]
    constructor
    · rintro ⟨u, s₁, h₁, rs, h₂⟩
      exact ⟨rs, u, s₁, h₁, h₂⟩
    · rintro ⟨rs, u, s₁, h₁, h₂⟩
      exact ⟨u, s₁, h₁, rs, h₂⟩
  cases c with
  | log1IrNoX1Dr n a size | log1IrNoX1Dw n a size => exact hafter n _ _ a size
  | log0Ir1Dr n a size | log0Ir1Dw n a size => exact logData_eq_ok_iff
  | _ => exact hplain _

/-- …and of a run. -/
theorem runCalls_eq_ok_iff (calls : List (HelperCall L)) :
    runCalls opts calls s = .ok (⟨⟩, s') ↔ ∃ rs, recordCalls opts calls s = .ok (rs, s') := by
  induction calls generalizing s with
  | nil =>
    constructor
    · intro h
      cases h
      exact ⟨[], rfl⟩
    · rintro ⟨rs, h⟩
      cases h
      rfl
  | cons c calls ih =>
    change (c.exec opts >>= fun _ => runCalls opts calls) s = _ ↔ _
    simp only [recordCalls, bind_eq_ok_iff, ih]
    constructor
    · rintro ⟨u, s₁, h₁, rs', h₂⟩
      obtain ⟨rs, h₁⟩ := (exec_eq_ok_iff c).mp h₁
      exact ⟨_, rs, s₁, h₁, rs', s', h₂, rfl⟩
    · rintro ⟨_, rs, s₁, h₁, rs', s₂, h₂, hpure⟩
      cases hpure
      exact ⟨⟨⟩, s₁, (exec_eq_ok_iff c).mpr ⟨rs, h₁⟩, rs', h₂⟩

end

/-! ## A window -/

/-- The shadow D1 caches and histories in a window that started with the cache `C`, after the
references `cur`. -/
structure WindowState (w : ℕ) (C : CacheT2) (cur : List Outcome) (d : D1Data) : Prop where
  recorded : ∀ i, Recorded w (cur.map (·.missed i)) (d.history i)
  same : ∀ i, (∀ r ∈ cur, r.missed i = false) → SameTags C (d.cache i)
  stored_iff : ∀ i, (∀ r ∈ cur, r.missed i = false) ↔ ∀ r ∈ cur, Stored C r.addr r.size
  least : ∀ r ∈ cur.getLast?, ∀ i, cur.countP (·.missed r.selected) ≤ cur.countP (·.missed i)

theorem count_missed (cur : List Outcome) (i : Fin 4) :
    (cur.map (·.missed i)).count true = cur.countP (·.missed i) := by
  rw [List.count, countP_map]
  exact countP_congr fun r _ => by simp

/-- A fresh window. -/
theorem windowState_nil (hcache : ∀ i, d.cache i = C) (hhistory : ∀ i, Recorded w [] (d.history i)) :
    WindowState w C [] d where
  recorded := hhistory
  same i _ := by rw [hcache i]; exact SameTags.refl C
  stored_iff _ := by simp
  least := by simp

section Step

variable (hw : 2 ≤ w) (hd : WindowState w C cur d) (hlt : cur.length < w)
  (heffect : ∀ i, RefEffect w r.addr r.size (r.missed i) (d.cache i) (d'.cache i) (d.history i)
    (d'.history i))
include hw hd hlt heffect

/-- The histories of a window, one reference on. -/
theorem WindowState.recorded_concat (i : Fin 4) :
    Recorded w ((cur ++ [r]).map (·.missed i)) (d'.history i) := by
  obtain ⟨x, hstore⟩ := (heffect i).store
  obtain ⟨y, h', hstore', hrec⟩ :=
    (hd.recorded i).store hw (by rw [length_map]; exact hlt) (r.missed i)
  rw [hstore] at hstore'
  cases hstore'
  rw [map_append]
  exact hrec

/-- **A reference that hits leaves a policy without misses as it was; the best one is chosen.** -/
theorem WindowState.step
    (hbest : ∀ i, (d'.history r.selected).historicMisses ≤ (d'.history i).historicMisses) :
    WindowState w C (cur ++ [r]) d' := by
  have hrecorded := hd.recorded_concat hw hlt heffect
  have hall : ∀ i, (∀ r' ∈ cur ++ [r], r'.missed i = false)
      ↔ (∀ r' ∈ cur, r'.missed i = false) ∧ r.missed i = false := by
    intro i
    simp only [forall_mem_append, forall_mem_singleton]
  refine ⟨hrecorded, fun i h => ?_, fun i => ?_, fun r' hr' i => ?_⟩
  · obtain ⟨hcur, hr⟩ := (hall i).mp h
    exact (hd.same i hcur).trans ((heffect i).same hr)
  · rw [hall, forall_mem_append, forall_mem_singleton, ← hd.stored_iff i]
    refine and_congr_right fun hcur => ?_
    rw [(heffect i).hit_iff, (hd.same i hcur).stored_iff]
  · rw [getLast?_concat, Option.mem_some_iff] at hr'
    subst hr'
    have hle := hbest i
    rwa [(hrecorded _).historic_eq, (hrecorded _).historic_eq, cast_le, count_missed,
      count_missed] at hle

end Step

/-- The misses of a window are those of its best policy. -/
theorem WindowState.misses_eq (hd : WindowState w C (cur ++ [r]) d) :
    (d.history r.selected).misses = windowMisses (cur ++ [r]) := by
  rw [(hd.recorded _).misses_eq, count_missed, windowMisses, getLast?_concat]

/-- **The best policy has no miss iff the window touches only what its first cache held.** -/
theorem WindowState.windowMisses_eq_zero_iff (hd : WindowState w C cur d) :
    windowMisses cur = 0 ↔ ∀ r ∈ cur, Stored C r.addr r.size := by
  cases hlast : cur.getLast? with
  | none =>
    rw [getLast?_eq_none_iff] at hlast
    simp [hlast, windowMisses]
  | some r =>
    rw [windowMisses, hlast, ← hd.stored_iff r.selected]
    simp

/-- …and a new one starts with the caches of the best policy. -/
theorem Closing.windowState [Fintype L] (hw : opts.windowCounter = w) {v : Sim L}
    (hv : Closing opts sh u 4 v) (hu : WindowState w C cur u.engine.d1Data) (hlen : cur.length = w) :
    WindowState w (u.engine.d1Data.cache u.indexMinMissesPolicy) [] v.engine.d1Data := by
  refine windowState_nil (fun i => (hv.done i i.isLt).1) fun i => ?_
  rw [(hv.done i i.isLt).2]
  refine recorded_nil ?_ rfl rfl ?_
  · change List.replicate opts.windowCounter.toNat 0 = _
    rw [hw, Int.toNat_natCast]
  · change (u.engine.d1Data.history i).bitResultCounter = 0
    rw [(hu.recorded i).counter_eq, length_map, hlen, mod_self]

/-- The misses of a policy in the window, as the loop compares them. -/
theorem Recorded.historic_mem {bits : List Bool} {h : MissHistory} (hrec : Recorded w bits h)
    (hle : bits.length ≤ w) : 0 ≤ h.historicMisses ∧ h.historicMisses ≤ w := by
  have hcount : bits.count true ≤ bits.length := count_le_length
  rw [hrec.historic_eq]
  omega

/-- The best policy, after the shadow loop. -/
theorem Scanned.best {least : ℕ} (hw : w < 2 ^ 31) (h : Scanned opts sh s a size 4 least u)
    (hle : ∀ i, 0 ≤ (u.engine.d1Data.history i).historicMisses
      ∧ (u.engine.d1Data.history i).historicMisses ≤ w)
    (i : Fin 4) : (u.engine.d1Data.history u.indexMinMissesPolicy).historicMisses
      ≤ (u.engine.d1Data.history i).historicMisses := by
  have hcost : ∀ i, toULong (u.engine.d1Data.history i).historicMisses
      = (u.engine.d1Data.history i).historicMisses.toNat := fun i =>
    toULong_of_nonneg (hle i).1 (by have := (hle i).2; omega)
  have hi := h.least_le i i.isLt
  rw [hcost] at hi
  obtain ⟨h0, h1⟩ := hle i
  rcases h.least_eq with heq | ⟨heq, -⟩
  · omega
  · rw [hcost] at heq
    have := (hle u.indexMinMissesPolicy).1
    omega

/-! ## A run -/

section Run

variable [Fintype L] {c : CacheRef}

/-- The state after the data references `rs`: the line counters hold the misses of the complete
windows. -/
structure Accounted (opts : Options) (sh : Shape) (w : ℕ) (C : CacheT2) (rs : List Outcome)
    (s : Sim L) : Prop where
  shape : SimShape opts sh s
  instr : ∀ m ∈ s.missesI, m.kind = .ir
  blocks_eq : s.blocks = rs.length % w
  window : WindowState w C (current w rs) s.engine.d1Data
  reported_eq : reportedMisses s.lines = complete windowMisses w rs

instance : Outer fun s : Sim L => (s.lines, s.blocks, s.missesI) :=
  ⟨fun _ _ => rfl, fun _ _ => rfl, fun _ _ => rfl⟩

/-- Accounted for after some more data references, in the same window if it has room for them. -/
def AccountedAfter (opts : Options) (sh : Shape) (w : ℕ) (C : CacheT2) (rs new : List Outcome)
    (s : Sim L) : Prop :=
  ∃ C', Accounted opts sh w C' (rs ++ new) s ∧ (rs.length % w + new.length < w → C' = C)

theorem Accounted.after_nil (h : Accounted opts sh w C rs s) : AccountedAfter opts sh w C rs [] s :=
  ⟨C, by rwa [append_nil], fun _ => rfl⟩

/-- A program that leaves what is accounted for as it is. -/
abbrev Aside {α : Type} (opts : Options) (sh : Shape) (w : ℕ) (C : CacheT2) (rs : List Outcome)
    (prog : SimM L α) : Prop := Keeps (Accounted opts sh w C rs) prog fun _ => True

theorem Accounted.looked (hs : Accounted opts sh w C rs s) {held : Prop}
    {miss : Bool} {e : Engine} (h : Looked c held miss s.engine e) (hc : ∀ i, c ≠ .shadow i .d1) :
    Accounted opts sh w C rs { s with engine := e } :=
  ⟨⟨h.hasShape hs.shape.1, hs.shape.2⟩, hs.instr, hs.blocks_eq,
    by rw [h.d1Data_eq hc]; exact hs.window, hs.reported_eq⟩

theorem accounted_call (p : Replacement) (hc : ∀ i, c ≠ .shadow i .d1) (n : ℕ)
    (tag : UWord) : Aside (L := L) opts sh w C rs (onEngine (p.call opts c n tag)) := by
  refine fun s hs => ⟨fun miss s' h => ?_, fun _ _ => trivial⟩
  obtain ⟨e, he, rfl⟩ := onEngine_eq_ok_iff.mp h
  exact hs.looked (looked_call he) hc

theorem accounted_refIsMiss (hmode : opts.cacheReplacementPolicy = .fixedWindow)
    (hc : ∀ i, c ≠ .shadow i .d1) (a : Addr) (size : ℕ) :
    Aside (L := L) opts sh w C rs (refIsMiss opts c a size) := by
  refine fun s hs => ⟨fun miss s' h => ?_, fun _ _ => trivial⟩
  obtain ⟨p, hp⟩ := hs.shape.2 (by rw [hmode]; rfl)
  rw [refIsMiss, bind_of_ok (get_run s), hp] at h
  obtain ⟨e, he, rfl⟩ := onEngine_eq_ok_iff.mp h
  exact hs.looked (looked_refIsMiss he) hc

/-- Counting a miss of an instruction in a policy. -/
theorem accounted_onPolicy (i : Fin 4) {f : Policy → Policy} (hd1 : ∀ p, (f p).d1 = p.d1)
    (hfunc : ∀ p, (f p).isMissFunc = p.isMissFunc) :
    Aside (L := L) opts sh w C rs (onPolicy i f) :=
  .modify fun s hs => ⟨⟨HasShape.setPolicy hs.shape.1 i hfunc, hs.shape.2⟩, hs.instr,
    hs.blocks_eq, by dsimp only; rw [d1Data_setPolicy_of_eq _ i (hd1 _)]; exact hs.window,
    hs.reported_eq⟩

variable [DecidableEq L]

omit [Fintype L] in
/-- A data reference is the shadow loop, and perhaps the end of the window. -/
theorem fixedWindow_D1Doref_ok (hmode : opts.cacheReplacementPolicy = .fixedWindow) {x : PUnit}
    (h : cachesimD1Doref opts m a size s = .ok (x, s')) :
    ∃ least u, (policyIndices.take 4).foldlM (shadowDref opts a size) (2 ^ 64 - 1) s.entered
        = .ok (least, u)
      ∧ (u.lines = s.lines ∧ u.blocks = s.blocks + 1 ∧ u.missesI = s.missesI)
      ∧ (if toULong opts.windowCounter ≤ u.blocks then closeWindow opts m else pure ⟨⟩) u
        = .ok (x, s') := by
  rw [cachesimD1Doref, bind_of_ok (modify_run _ s)] at h
  simp only [hmode] at h
  obtain ⟨_, u, hdrefs, h⟩ := bind_eq_ok_iff.mp h
  obtain ⟨least, hfold⟩ := discard_eq_ok_iff.mp hdrefs
  have hframe : Frames (fun s : Sim L => (s.lines, s.blocks, s.missesI))
      (shadowDrefs opts a size) := frames_shadowDrefs opts a size
  have heq := hframe _ _ _ hdrefs
  simp only [Prod.mk.injEq] at heq
  exact ⟨least, u, hfold, heq, h⟩

/-- **One data reference.** -/
theorem Accounted.dref (hmode : opts.cacheReplacementPolicy = .fixedWindow) (hreg : sh.Regular)
    (hw : opts.windowCounter = w) (h2 : 2 ≤ w) (hm : m.kind ≠ .ir) (hs : Accounted opts sh w C rs s)
    (hrecord : recordD1 opts m a size s = .ok (r, s')) :
    ∃ C', Accounted opts sh w C' (rs ++ [r]) s' ∧ (rs.length % w + 1 < w → C' = C) := by
  obtain ⟨h, hr⟩ := recordD1_eq_ok_iff.mp hrecord
  obtain ⟨least, u, hfold, ⟨hlines, hblocks, hmissesI⟩, hclose⟩ := fixedWindow_D1Doref_ok hmode h
  have hscan := scanned_of_ok hmode hreg hs.shape 4 le_rfl hfold
  have hlt : rs.length % w < w := mod_lt _ (by omega)
  have hlen : (current w rs).length = rs.length % w := length_current w rs
  have hw31 : w < 2 ^ 31 := by
    have := opts.windowCounter_lt
    omega
  have hinstr : ∀ m ∈ u.missesI, m.kind = .ir := by
    rw [hmissesI]
    exact hs.instr
  have heffect : ∀ i, RefEffect w a size (missedBy opts s a size i) (s.engine.d1Data.cache i)
      (u.engine.d1Data.cache i) (s.engine.d1Data.history i) (u.engine.d1Data.history i) := by
    intro i
    have := hscan.done i i.isLt
    rwa [hw] at this
  have hbest := hscan.best hw31 fun i =>
    (hs.window.recorded_concat h2 (r := ⟨a, size, missedBy opts s a size, 0⟩) (by omega) heffect
      i).historic_mem (by simp only [length_map, length_append, length_singleton]; omega)
  have hstep : s'.indexMinMissesPolicy = u.indexMinMissesPolicy →
      WindowState w C (current w rs ++ [r]) u.engine.d1Data := by
    intro hindex
    rw [hindex] at hr
    subst hr
    exact hs.window.step h2 (by omega) heffect hbest
  have hulong : toULong opts.windowCounter = w := by
    rw [toULong_of_nonneg (by omega) (by omega), hw, Int.toNat_natCast]
  rw [hulong, hblocks, hs.blocks_eq] at hclose
  have hsucc : (rs ++ [r]).length % w = (rs.length % w + 1) % w := by
    rw [length_append, length_singleton, mod_add_mod]
  rcases lt_or_eq_of_le (show rs.length % w + 1 ≤ w from hlt) with hopen | hfull
  · -- The window goes on.
    rw [if_neg (by omega)] at hclose
    cases hclose
    refine ⟨C, ⟨hscan.shape, hinstr, ?_, ?_, ?_⟩, fun _ => rfl⟩
    · rw [hblocks, hs.blocks_eq, hsucc, mod_eq_of_lt hopen]
    · rw [current_concat_of_lt r hopen]
      exact hstep rfl
    · rw [complete_concat_of_lt r _ hopen, hlines, hs.reported_eq]
  · -- The window ends, and its misses are reported.
    rw [if_pos (by omega)] at hclose
    obtain ⟨hclosing, hzero⟩ := closeWindow_ok hreg hm hinstr hscan.shape hclose
    have hwindow := hstep hclosing.index_eq
    refine ⟨u.engine.d1Data.cache u.indexMinMissesPolicy,
      ⟨hclosing.shape, by rw [hclosing.missesI_eq]; exact hinstr, ?_, ?_, ?_⟩,
      fun hopen => absurd hfull hopen.ne⟩
    · rw [hzero, hsucc, hfull, mod_self]
    · rw [current_concat_of_eq r hfull]
      refine hclosing.windowState hw hwindow ?_
      rw [length_append, length_singleton, hlen, hfull]
    · rw [complete_concat_of_eq r _ hfull, ← hwindow.misses_eq, hclosing.reported_eq, hlines,
        hs.reported_eq, if_pos u.indexMinMissesPolicy.isLt, hr, hclosing.index_eq]

/-! ### Everything but the data references -/

section Aside

/-- Counting in the line of an instruction, or counting an access. -/
theorem accounted_addCC {da d1 dL : ℕ} (h : m.kind = .ir ∨ d1 = 0) :
    Aside opts sh w C rs
      (modify fun s => { s with lines := addCC m da d1 dL s.lines } : SimM L PUnit) := by
  refine .modify fun s hs => ⟨hs.shape, hs.instr, hs.blocks_eq, hs.window, ?_⟩
  dsimp only
  rw [reportedMisses_addCC, hs.reported_eq]
  rcases h with h | h
  · rw [if_pos h, add_zero]
  · rw [h, ite_self, add_zero]

variable (hmode : opts.cacheReplacementPolicy = .fixedWindow) (hreg : sh.Regular)
include hmode

theorem accounted_resultRef (hm : m.kind = .ir) (a : Addr) (size : ℕ) :
    Aside opts sh w C rs (resultRef opts .i1 m a size) :=
  Spec.bind (accounted_refIsMiss hmode (by simp) a size) fun _ => Keeps.when fun _ =>
    .bind (accounted_addCC (.inl hm)) fun _ =>
      .bind (accounted_refIsMiss hmode (by simp) a size) fun _ =>
        Keeps.when fun _ => accounted_addCC (.inl hm)

include hreg

omit [DecidableEq L] in
theorem accounted_shadowIr (a : Addr) (size : ℕ) (i : Fin 4) :
    Aside (L := L) opts sh w C rs (shadowIr opts a size i) := by
  refine Spec.get_bind fun s₀ hs₀ => Spec.bind (Keeps.modify fun _ hs => { hs with
    shape := ⟨hs.shape.1, fun _ => ⟨_, hs₀.shape.isMissFunc_eq hreg i⟩⟩ }) fun _ => ?_
  exact Spec.bind (accounted_refIsMiss hmode (by simp) a size) fun _ => Keeps.when fun _ =>
    Spec.bind (accounted_onPolicy i (fun _ => rfl) fun _ => rfl) fun _ =>
      Spec.bind (accounted_refIsMiss hmode (by simp) a size) fun _ =>
        Keeps.when fun _ => accounted_onPolicy i (fun _ => rfl) fun _ => rfl

/-- An instruction read, on the generic path… -/
theorem accounted_I1DorefGen (hm : m.kind = .ir) (a : Addr) (size : ℕ) :
    Aside opts sh w C rs (cachesimI1DorefGen opts m a size) :=
  Spec.bind (Keeps.modify fun _ hs => { hs with instr := by simpa }) fun _ =>
    Spec.bind (Keeps.when fun _ => Spec.forM fun i _ => accounted_shadowIr hmode hreg a size i)
      fun _ => accounted_resultRef hmode hm a size

omit hmode

omit [DecidableEq L] in
theorem accounted_shadowIrNoX (i1Set : ℕ) (block : UWord) (i : Fin 4) :
    Aside (L := L) opts sh w C rs (shadowIrNoX opts i1Set block i) := by
  refine .get_bind fun s₀ hs₀ => ?_
  rw [hs₀.shape.isMissFunc_eq hreg i]
  refine Spec.bind (accounted_call _ (by simp) _ _) fun _ => Keeps.when fun _ => ?_
  refine Spec.get_bind fun s₁ hs₁ => ?_
  rw [hs₁.shape.isMissFunc_eq hreg i]
  exact .bind (accounted_onPolicy i (fun _ => rfl) fun _ => rfl) fun _ =>
    .bind (accounted_call _ (by simp) _ _) fun _ =>
      Keeps.when fun _ => accounted_onPolicy i (fun _ => rfl) fun _ => rfl

include hmode

omit hreg in
theorem accounted_resultRefNoX (hm : m.kind = .ir) (i1Set : ℕ) (block : UWord) :
    Aside opts sh w C rs (resultRefNoX opts i1Set block m) := by
  have hcall : ∀ {s₀ : Sim L} {l : Level} (n : ℕ), l ≠ .d1 → Accounted opts sh w C rs s₀ →
      Aside (L := L) opts sh w C rs
        (onEngine (s₀.setrefIsMiss.call opts (.main l) n block)) := by
    intro s₀ l n _ hs₀
    obtain ⟨p, hp⟩ := hs₀.shape.2 (by rw [hmode]; rfl)
    rw [hp]
    exact accounted_call p (by simp) n block
  refine .get_bind fun s₀ hs₀ => .bind (hcall _ (by decide) hs₀) fun _ => .ite
    (fun _ => Spec.get_bind fun s₁ hs₁ => ?_) fun _ => Keeps.pure
  exact .bind (accounted_addCC (.inl hm)) fun _ => .bind (hcall _ (by decide) hs₁) fun _ =>
    Keeps.when fun _ => accounted_addCC (.inl hm)

/-- …and on the fast one. -/
theorem accounted_I1DorefNoX (hm : m.kind = .ir) (a : Addr) (size : ℕ) :
    Aside opts sh w C rs (cachesimI1DorefNoX opts m a size) :=
  Spec.bind (Keeps.modify fun _ hs => { hs with instr := by simpa }) fun _ =>
    .get_bind fun _ _ =>
      Spec.bind (Keeps.when fun _ => Spec.forM fun i _ => accounted_shadowIrNoX hreg _ _ i)
        fun _ => accounted_resultRefNoX hmode hm _ _

omit hmode hreg in
/-- A branch. -/
theorem accounted_onLine {l₀ : L} {f : LineCC → LineCC}
    (hf : ∀ cc, (f cc).Dr = cc.Dr ∧ (f cc).Dw = cc.Dw) :
    Aside opts sh w C rs (onLine l₀ f) := by
  refine .modify fun s hs => ⟨hs.shape, hs.instr, hs.blocks_eq, hs.window, ?_⟩
  rw [← hs.reported_eq]
  refine Finset.sum_congr rfl fun l _ => ?_
  dsimp only
  rcases eq_or_ne l l₀ with rfl | hne
  · rw [Function.update_self, (hf _).1, (hf _).2]
  · rw [Function.update_of_ne hne]

omit hreg hmode in
theorem accounted_logCondBranch (n : InstrInfo L) (taken : ℤ) :
    Aside opts sh w C rs (logCondBranch opts n taken) := by
  refine fun s hs => ⟨fun x s' h => ?_, fun _ _ => trivial⟩
  unfold logCondBranch at h
  split at h
  · cases h
  · refine Spec.ok (accounted_onLine ?_) ?_ h
    · exact fun _ => ⟨rfl, rfl⟩
    · exact { hs with }

omit hreg hmode in
theorem accounted_logIndBranch (n : InstrInfo L) (dst : Addr) :
    Aside opts sh w C rs (logIndBranch opts n dst) := by
  refine fun s hs => ⟨fun x s' h => ?_, fun _ _ => trivial⟩
  unfold logIndBranch at h
  refine Spec.ok (accounted_onLine ?_) ?_ h
  · exact fun _ => ⟨rfl, rfl⟩
  · exact { hs with }

theorem accounted_log1IrNoX (n : InstrInfo L) :
    Aside opts sh w C rs (log1IrNoX0DCacheAccess opts n) :=
  .bind (accounted_I1DorefNoX hmode hreg rfl _ _) fun _ => accounted_addCC (.inl rfl)

end Aside

section Record

variable (hmode : opts.cacheReplacementPolicy = .fixedWindow) (hreg : sh.Regular)
  (hw : opts.windowCounter = w) (h2 : 2 ≤ w)
include hmode hreg hw h2

/-- A data helper. -/
theorem accounted_recordData (hkind : kind ≠ .ir)
    (n : InstrInfo L) (a : Addr) (size : ℕ) :
    Spec (Accounted opts sh w C rs) (recordData opts tag kind n a size)
      (AccountedAfter opts sh w C rs) fun _ => True := by
  refine fun s hs => ⟨fun new s' h => ?_, fun _ _ => trivial⟩
  obtain ⟨r, s₁, s₂, htrace, hrecord, rfl, rfl⟩ := recordData_eq_ok_iff.mp h
  have hs₁ : Accounted opts sh w C rs s₁ := by
    cases htrace
    dsimp only
    split
    · exact { hs with }
    · exact hs
  obtain ⟨C', hs₂, hC⟩ := hs₁.dref hmode hreg hw h2 hkind hrecord
  exact ⟨C', (accounted_addCC (.inr rfl)).ok hs₂ rfl, hC⟩

/-- **One call.** -/
theorem accounted_record (c : HelperCall L) :
    Spec (Accounted opts sh w C rs) (c.record opts) (AccountedAfter opts sh w C rs)
      fun _ => True := by
  have hnil : ∀ {prog : SimM L PUnit}, Aside opts sh w C rs prog →
      Spec (Accounted opts sh w C rs) (prog >>= fun _ => pure ([] : List Outcome))
        (AccountedAfter opts sh w C rs) fun _ => True := fun h =>
    .bind h fun _ => .pure fun _ hs => hs.after_nil
  have hIr : ∀ n : InstrInfo L, Aside opts sh w C rs (log1Ir n) :=
    fun n => accounted_addCC (.inl rfl)
  have hNoX : ∀ n : InstrInfo L, Aside opts sh w C rs (log1IrNoX0DCacheAccess opts n) :=
    accounted_log1IrNoX hmode hreg
  cases c with
  | log1Ir n => exact hnil (hIr n)
  | log2Ir n n2 => exact hnil (.bind (hIr n) fun _ => hIr n2)
  | log3Ir n n2 n3 =>
    exact hnil (.bind (hIr n) fun _ => .bind (hIr n2) fun _ => hIr n3)
  | log1IrGen0D n =>
    exact hnil (.bind (accounted_I1DorefGen hmode hreg rfl _ _) fun _ =>
      accounted_addCC (.inl rfl))
  | log1IrNoX0D n => exact hnil (hNoX n)
  | log2IrNoX0D n n2 => exact hnil (.bind (hNoX n) fun _ => hNoX n2)
  | log3IrNoX0D n n2 n3 =>
    exact hnil (.bind (hNoX n) fun _ => .bind (hNoX n2) fun _ => hNoX n3)
  | log1IrNoX1Dr n a size | log1IrNoX1Dw n a size =>
    exact .bind (hNoX n) fun _ => accounted_recordData hmode hreg hw h2 (by decide) n a size
  | log0Ir1Dr n a size | log0Ir1Dw n a size =>
    exact accounted_recordData hmode hreg hw h2 (by decide) n a size
  | logCondBranch n taken => exact hnil (accounted_logCondBranch n taken)
  | logIndBranch n dst => exact hnil (accounted_logIndBranch n dst)
  | setPolicy policy =>
    exact hnil (.modify fun s hs => { hs with })

/-- **A whole run.** -/
theorem accounted_recordCalls (calls : List (HelperCall L)) :
    Spec (Accounted opts sh w C rs) (recordCalls opts calls) (AccountedAfter opts sh w C rs)
      fun _ => True := by
  induction calls generalizing C rs with
  | nil => exact .pure fun s hs => hs.after_nil
  | cons c calls ih =>
    refine fun s hs => ⟨fun new s' h => ?_, fun _ _ => trivial⟩
    obtain ⟨rs₁, s₁, h₁, h⟩ := bind_eq_ok_iff.mp h
    obtain ⟨rs₂, s₂, h₂, h⟩ := bind_eq_ok_iff.mp h
    cases h
    obtain ⟨C₁, hs₁, hC₁⟩ := (accounted_record hmode hreg hw h2 c).ok hs h₁
    obtain ⟨C₂, hs₂, hC₂⟩ := ih.ok hs₁ h₂
    refine ⟨C₂, by rwa [← append_assoc], fun hlt => ?_⟩
    rw [length_append] at hlt
    rw [← hC₁ (by omega)]
    refine hC₂ ?_
    rw [length_append, ← mod_add_mod, mod_eq_of_lt (by omega)]
    omega

end Record

/-! ## What is reported -/

omit [Fintype L] in
theorem recordCalls_append_eq_ok {past last : List (HelperCall L)} {t : Sim L} {rs' : List Outcome}
    (h : recordCalls opts past s = .ok (rs, t)) (h' : recordCalls opts last t = .ok (rs', u)) :
    recordCalls opts (past ++ last) s = .ok (rs ++ rs', u) := by
  induction past generalizing s rs with
  | nil =>
    cases h
    exact h'
  | cons c past ih =>
    obtain ⟨rs₁, s₁, h₁, h⟩ := bind_eq_ok_iff.mp h
    obtain ⟨rs₂, s₂, h₂, h⟩ := bind_eq_ok_iff.mp h
    cases h
    rw [append_assoc]
    exact bind_eq_ok_iff.mpr ⟨rs₁, s₁, h₁, bind_eq_ok_iff.mpr ⟨_, _, ih h₂, rfl⟩⟩

/-- The data accesses of a call. -/
def HelperCall.accesses : HelperCall L → List (Addr × ℕ)
  | .log1IrNoX1Dr _ a size | .log1IrNoX1Dw _ a size | .log0Ir1Dr _ a size | .log0Ir1Dw _ a size =>
    [(a, toUChar size)]
  | _ => []

/-- …and of a run. -/
def dataAccesses (calls : List (HelperCall L)) : List (Addr × ℕ) :=
  calls.flatMap HelperCall.accesses

omit [DecidableEq L] [Fintype L] in
theorem dataAccesses_append (calls calls' : List (HelperCall L)) :
    dataAccesses (calls ++ calls') = dataAccesses calls ++ dataAccesses calls' :=
  flatMap_append

omit [Fintype L] in
/-- A call makes its data accesses. -/
theorem record_accesses {c : HelperCall L} (h : c.record opts s = .ok (rs, s')) :
    rs.map (fun r => (r.addr, r.size)) = c.accesses := by
  have hdata : ∀ {tag kind} {n : InstrInfo L} {a size} {s : Sim L},
      recordData opts tag kind n a size s = .ok (rs, s') →
        rs.map (fun r => (r.addr, r.size)) = [(a, toUChar size)] := by
    intro tag kind n a size s h
    obtain ⟨r, s₁, s₂, -, hr, -, rfl⟩ := recordData_eq_ok_iff.mp h
    obtain ⟨-, rfl⟩ := recordD1_eq_ok_iff.mp hr
    rfl
  cases c with
  | log1IrNoX1Dr n a size | log1IrNoX1Dw n a size =>
    obtain ⟨_, s₁, -, h⟩ := bind_eq_ok_iff.mp h
    exact hdata h
  | log0Ir1Dr n a size | log0Ir1Dw n a size => exact hdata h
  | _ =>
    obtain ⟨_, s₁, -, h⟩ := bind_eq_ok_iff.mp h
    cases h
    rfl

omit [Fintype L] in
theorem recordCalls_accesses {calls : List (HelperCall L)}
    (h : recordCalls opts calls s = .ok (rs, s')) :
    rs.map (fun r => (r.addr, r.size)) = dataAccesses calls := by
  induction calls generalizing s rs with
  | nil =>
    cases h
    rfl
  | cons c calls ih =>
    obtain ⟨rs₁, s₁, h₁, h⟩ := bind_eq_ok_iff.mp h
    obtain ⟨rs₂, s₂, h₂, h⟩ := bind_eq_ok_iff.mp h
    cases h
    rw [map_append, record_accesses h₁, ih h₂, dataAccesses, dataAccesses, flatMap_cons]

omit [DecidableEq L] [Fintype L] in
/-- A run, cut after its last complete window. -/
theorem exists_split (hw : 0 < w) (calls : List (HelperCall L)) :
    ∃ past last, calls = past ++ last ∧ w ∣ (dataAccesses past).length
      ∧ (dataAccesses last).length < w := by
  induction calls using List.reverseRecOn with
  | nil => exact ⟨[], [], rfl, dvd_zero w, hw⟩
  | append_singleton calls c ih =>
    obtain ⟨past, last, rfl, hdvd, hlt⟩ := ih
    have hone : c.accesses.length ≤ 1 := by cases c <;> simp [HelperCall.accesses]
    have hc : ∀ front, (dataAccesses (front ++ [c])).length
        = (dataAccesses front).length + c.accesses.length := by
      intro front
      rw [dataAccesses_append, length_append]
      congr 1
      rw [dataAccesses, flatMap_singleton]
    rcases lt_or_ge ((dataAccesses last).length + c.accesses.length) w with hopen | hfull
    · exact ⟨past, last ++ [c], append_assoc .., hdvd, by rwa [hc]⟩
    · refine ⟨past ++ last ++ [c], [], (append_nil _).symm, ?_, hw⟩
      rw [hc, dataAccesses_append, length_append, add_assoc]
      exact dvd_add hdvd ⟨1, by rw [mul_one]; exact le_antisymm (by omega) hfull⟩

/-- Since the end of the last complete window all data accesses touch blocks that the shadow D1
caches, equal then, held then. -/
def LastWindowStored (opts : Options) (s₀ : Sim L) (calls : List (HelperCall L)) : Prop :=
  ∃ past last t, calls = past ++ last ∧ opts.windowCounter.toNat ∣ (dataAccesses past).length
    ∧ (dataAccesses last).length < opts.windowCounter.toNat
    ∧ runCalls opts past s₀ = .ok (⟨⟩, t)
    ∧ ∀ x ∈ dataAccesses last, Stored (t.engine.caches (.shadow 0 .d1)) x.1 x.2

omit [DecidableEq L] in
/-- Start-up. -/
theorem accounted_start (hw : opts.windowCounter = w) (I1 D1 LL I1s D1s LLs : CacheT2)
    (r : RandomStream) (loc : L → CodeLoc) :
    Accounted opts (Engine.init opts I1 D1 LL I1s D1s LLs r).shape w D1s []
      (Sim.start opts (Engine.init opts I1 D1 LL I1s D1s LLs r) loc) where
  shape := simShape_start opts _ loc
  instr := by simp [Sim.start]
  blocks_eq := (zero_mod w).symm
  window := by
    rw [current_nil]
    refine windowState_nil (fun _ => rfl) fun _ => recorded_nil ?_ rfl rfl rfl
    change List.replicate opts.windowCounter.toNat 0 = _
    rw [hw, Int.toNat_natCast]
  reported_eq := by simp [reportedMisses, Sim.start, LineCC.new]

section

variable (hmode : opts.cacheReplacementPolicy = .fixedWindow) {I1c D1c LLc : CacheT}
  {loc : L → CodeLoc} {r : RandomStream} {s₀ s : Sim L}
  (hinit : cachesimInitcaches opts I1c D1c LLc loc r = .ok s₀)
include hmode hinit

/-- **What is missing from the report**, for a run cut after its last complete window. -/
theorem reported_iff_of_cut (hw : opts.windowCounter = w) (h2 : 2 ≤ w)
    {past last : List (HelperCall L)} (hdvd : w ∣ (dataAccesses past).length)
    (hlt : (dataAccesses last).length < w) {t : Sim L} (hpast : runCalls opts past s₀ = .ok (⟨⟩, t))
    (hlast : runCalls opts last t = .ok (⟨⟩, s)) :
    reportedMisses s.lines = total windowMisses w (outcomes opts (past ++ last) s₀)
      ↔ ∀ x ∈ dataAccesses last, Stored (t.engine.caches (.shadow 0 .d1)) x.1 x.2 := by
  obtain ⟨rs₁, h₁⟩ := (runCalls_eq_ok_iff past).mp hpast
  obtain ⟨rs₂, h₂⟩ := (runCalls_eq_ok_iff last).mp hlast
  have hout : outcomes opts (past ++ last) s₀ = rs₁ ++ rs₂ := by
    rw [outcomes, recordCalls_append_eq_ok h₁ h₂]
  rw [← recordCalls_accesses h₁, length_map] at hdvd
  rw [← recordCalls_accesses h₂, length_map] at hlt
  obtain ⟨I1, D1, LL, D1s, -, -, -, -, -, rfl⟩ := initcaches_ok hinit
  have hreg := regular_init opts I1 D1 LL I1 D1s LL r
  obtain ⟨C, ht, -⟩ := (accounted_recordCalls hmode hreg hw h2 past).ok
    (accounted_start hw I1 D1 LL I1 D1s LL r loc) h₁
  rw [nil_append] at ht
  obtain ⟨C', hs, hC⟩ := (accounted_recordCalls hmode hreg hw h2 last).ok ht h₂
  rw [hC (by rwa [mod_eq_zero_of_dvd hdvd, zero_add])] at hs
  have hsame : SameTags C (t.engine.caches (.shadow 0 .d1)) := by
    refine ht.window.same 0 ?_
    have hnil : current w (rs₁ ++ []) = [] := current_append_of_dvd hdvd (show 0 < w by omega)
    rw [append_nil] at hnil
    simp [hnil]
  rw [hout, total_eq (by omega), hs.reported_eq, left_eq_add,
    hs.window.windowMisses_eq_zero_iff, current_append_of_dvd hdvd hlt, ← recordCalls_accesses h₂]
  simp only [forall_mem_map, hsame.stored_iff]

/-- **Nothing is lost iff the best policy has no miss since the last complete window.** -/
theorem fixed_window_iff (h2 : 2 ≤ opts.windowCounter) {calls : List (HelperCall L)}
    (hrun : runCalls opts calls s₀ = .ok (⟨⟩, s)) :
    reportedMisses s.lines
        = total windowMisses opts.windowCounter.toNat (outcomes opts calls s₀)
      ↔ LastWindowStored opts s₀ calls := by
  have hw : opts.windowCounter = (opts.windowCounter.toNat : ℕ) :=
    (Int.toNat_of_nonneg (by omega)).symm
  constructor
  · intro heq
    obtain ⟨past, last, rfl, hdvd, hlt⟩ := exists_split (w := opts.windowCounter.toNat) (by omega)
      calls
    obtain ⟨t, hpast, hlast⟩ := forM_append_eq_ok_iff.mp hrun
    exact ⟨past, last, t, rfl, hdvd, hlt, hpast,
      (reported_iff_of_cut hmode hinit hw (by omega) hdvd hlt hpast hlast).mp heq⟩
  · rintro ⟨past, last, t, rfl, hdvd, hlt, hpast, hstored⟩
    obtain ⟨t', hpast', hlast⟩ := forM_append_eq_ok_iff.mp hrun
    cases hpast.symm.trans hpast'
    exact (reported_iff_of_cut hmode hinit hw (by omega) hdvd hlt hpast hlast).mpr hstored

end

end Run

/-- **Two complete references**: both miss, and both misses are reported. -/
theorem fixed_window_complete : ∃ (s₀ s : Sim Bool),
    cachesimInitcaches twoRefWindow ⟨32, 1, 16⟩ ⟨32, 1, 16⟩ ⟨32, 1, 16⟩ (fun _ => ⟨"a", "f", 1⟩)
        lcgStream = .ok s₀
      ∧ runCalls twoRefWindow twoLineCalls s₀ = .ok (⟨⟩, s)
      ∧ reportedMisses s.lines = total windowMisses 2 (outcomes twoRefWindow twoLineCalls s₀) := by
  have hruns : reaches twoRefWindow ⟨32, 1, 16⟩ ⟨32, 1, 16⟩ ⟨32, 1, 16⟩ (fun _ => ⟨"a", "f", 1⟩)
      lcgStream twoLineCalls (fun _ _ => True) = true := by decide +kernel
  obtain ⟨s₀, s, hinit, hrun, -⟩ := exists_of_reaches twoRefWindow hruns
  refine ⟨s₀, s, hinit, hrun, (fixed_window_iff rfl hinit (by decide) hrun).mpr ?_⟩
  exact ⟨twoLineCalls, [], s, (append_nil _).symm, dvd_rfl, by decide, hrun,
    by simp [dataAccesses]⟩

/-- **One reference of a window of two**: it misses in all policies, and nothing is reported. -/
theorem fixed_window_loses : ∃ (s₀ s : Sim Bool),
    cachesimInitcaches twoRefWindow ⟨32, 1, 16⟩ ⟨32, 1, 16⟩ ⟨32, 1, 16⟩ (fun _ => ⟨"a", "f", 1⟩)
        lcgStream = .ok s₀
      ∧ runCalls twoRefWindow (twoLineCalls.take 1) s₀ = .ok (⟨⟩, s)
      ∧ reportedMisses s.lines = 0
      ∧ total windowMisses 2 (outcomes twoRefWindow (twoLineCalls.take 1) s₀) = 1 :=
  exists_of_reaches twoRefWindow (by decide +kernel)

end Valgrind.Cachegrind
