import Valgrind.Cachegrind.Counters
import Valgrind.Cachegrind.Shape

/-!
# Cachegrind/WindowLoop — the two loops of the fixed-window approach

A data reference goes through `cachesim_D1_doref`'s loop over the four shadow policies, and the last
one of a window through the loop that closes it.  Both are followed iteration by iteration
(`Scanned`, `Closing`), on the D1 half of the policies (`D1Data`): their caches, and their miss
histories.

What one reference does to a cache is all in `Looked`: it hits iff the cache holds the blocks it
touches, and a hit leaves the tags where they are but for their order.
-/

open Hoare Function Nat List Prod

namespace Valgrind.Cachegrind

variable {L : Type} {opts : Options} {sh : Shape} {s t u v u' v' : Sim L} {i source : Fin 4}
  {x : PUnit}
  {e e' : Engine} {m : CCRef L} {c : CacheRef} {miss : Bool} {a : Addr} {size n w : ℕ}
  {h : MissHistory} {p : Replacement} {f : Policy → Policy}

/-! ## What the shadow references find -/

section Found

variable (opts)

/-- The reference of policy `i` to its D1 cache. -/
def lookD1 (a : Addr) (size : ℕ) (i : Fin 4) : SimM L Bool := do
  let s ← get
  setSetref (s.engine.policies i).isMissFunc
  refIsMiss opts (.shadow i .d1) a size

/-- A data reference up to there. -/
def foundMiss (a : Addr) (size : ℕ) (i : Fin 4) : SimM L Bool := do
  modify fun s => { s with accessCounter := s.accessCounter + 1, blocks := s.blocks + 1 }
  let _ ← (policyIndices.take i).foldlM (shadowDref opts a size) (2 ^ 64 - 1)
  lookD1 opts a size i

/-- Whether policy `i` misses in D1 on a data reference. -/
def missedBy (s : Sim L) (a : Addr) (size : ℕ) (i : Fin 4) : Bool :=
  match foundMiss opts a size i s with
  | .error _ => false
  | .ok (miss, _) => miss

end Found

/-! ## The miss history of a window -/

/-- The D1 history of a policy whose results in this window were `bits`. -/
structure Recorded (w : ℕ) (bits : List Bool) (h : MissHistory) : Prop where
  length_eq : h.arrayMisses.length = w
  misses_eq : h.misses = bits.count true
  historic_eq : h.historicMisses = bits.count true
  counter_eq : h.bitResultCounter = bits.length % w
  unused : ∀ j, bits.length ≤ j → j < w → h.arrayMisses[j]? = some 0

theorem clampTo_of_mem {hi x : ℤ} (h0 : 0 ≤ x) (hle : x ≤ hi) : clampTo hi x = x := by
  rw [clampTo, if_neg (not_lt.mpr hle), if_neg (not_lt.mpr h0)]

/-- `store_misses_history` puts a result in the place of an old one, where the clamps do nothing. -/
theorem storeMissesHistory_eq {w : ℤ} (hw : w ≠ 1) {v : Bool} (old : Bool)
    (hold : h.arrayMisses[h.bitResultCounter]? = some (old.toNat : ℤ))
    (hn : h.historicMisses + v.toNat = n + old.toNat) (hle : n ≤ w) :
    storeMissesHistory w v h = .ok (n,
      { arrayMisses := h.arrayMisses.set h.bitResultCounter v.toNat
        misses := h.misses + v.toNat
        historicMisses := n
        onlineMisses := clampTo w (if v then h.onlineMisses + 1 else h.onlineMisses - 1)
        bitResultCounter := if w ≤ h.bitResultCounter + 1 then 0 else h.bitResultCounter + 1 }) := by
  have hclamp : clampTo w n = n := clampTo_of_mem (Int.natCast_nonneg n) hle
  unfold storeMissesHistory
  cases v <;> cases old <;> simp_all

/-- **`store_misses_history` appends a result.** -/
theorem Recorded.store (hw : 2 ≤ w) {bits : List Bool}
    (hrec : Recorded w bits h) (hlt : bits.length < w) (v : Bool) :
    ∃ x h', storeMissesHistory w v h = .ok (x, h') ∧ Recorded w (bits ++ [v]) h' := by
  have hbit : h.bitResultCounter = bits.length := by
    rw [hrec.counter_eq, mod_eq_of_lt hlt]
  have hcount : (bits ++ [v]).count true = bits.count true + v.toNat := by
    cases v <;> simp
  have hlen : (bits ++ [v]).length = bits.length + 1 := by simp
  have hle : (bits ++ [v]).count true ≤ (bits ++ [v]).length := count_le_length
  refine ⟨_, _, storeMissesHistory_eq (n := (bits ++ [v]).count true) (by omega) false
    (by rw [hbit, hrec.unused _ le_rfl hlt]; rfl) (by rw [hrec.historic_eq, hcount]; simp)
    (by omega), ?_, ?_, rfl, ?_, fun j hj hjw => ?_⟩
  · rw [length_set, hrec.length_eq]
  · rw [hrec.misses_eq, hcount]
  · dsimp only
    rw [hlen, hbit]
    split
    · rw [show bits.length + 1 = w by omega, mod_self]
    · rw [mod_eq_of_lt (by omega)]
  · rw [hlen] at hj
    rw [getElem?_set_ne (by omega)]
    exact hrec.unused j (by omega) hjw

/-- A history as `cachesim_initcaches` or the end of a window leaves it. -/
theorem recorded_nil (harray : h.arrayMisses = List.replicate w 0)
    (hmisses : h.misses = 0) (hhistoric : h.historicMisses = 0) (hcounter : h.bitResultCounter = 0) :
    Recorded w [] h where
  length_eq := by rw [harray, length_replicate]
  misses_eq := hmisses
  historic_eq := hhistoric
  counter_eq := by rw [hcounter, length_nil, zero_mod]
  unused j _ hj := by rw [harray, getElem?_replicate, if_pos hj]

/-! ## What a cache holds -/

/-- Two caches of one geometry with the same tags in each set, in any order. -/
structure SameTags (C D : CacheT2) : Prop where
  geom : D.toGeometry = C.toGeometry
  mem_row : ∀ n tag, tag ∈ D.row n ↔ tag ∈ C.row n

theorem SameTags.refl (C : CacheT2) : SameTags C C := ⟨rfl, fun _ _ => Iff.rfl⟩

theorem SameTags.trans {C D E : CacheT2} (h : SameTags C D) (h' : SameTags D E) : SameTags C E :=
  ⟨h'.geom.trans h.geom, fun n tag => (h'.mem_row n tag).trans (h.mem_row n tag)⟩

/-- The cache holds the blocks an access touches. -/
def Stored (C : CacheT2) (a : Addr) (size : ℕ) : Prop :=
  C.block a ∈ C.row (C.setOf (C.block a))
    ∧ C.lastBlock a size ∈ C.row (C.setOf (C.lastBlock a size))

theorem SameTags.stored_iff {C D : CacheT2} (h : SameTags C D) (a : Addr) (size : ℕ) :
    Stored D a size ↔ Stored C a size := by
  rw [Stored, Stored, h.geom, h.mem_row, h.mem_row]

theorem RefSpec.mem_iff_of_hit {tag t : UWord} {set set' : List UWord}
    (h : RefSpec tag set false set') : t ∈ set' ↔ t ∈ set := by
  cases h with
  | promoted h => exact (perm_cons_erase h).symm.mem_iff
  | stayed _ => exact Iff.rfl

/-- A reference to the cache `c`: it hits iff `held`, and then keeps the tags; nothing else
changes but the random stream. -/
structure Looked (c : CacheRef) (held : Prop) (miss : Bool) (e e' : Engine) : Prop where
  hit_iff : miss = false ↔ held
  same : held → SameTags (e.caches c) (e'.caches c)
  geom : (e'.caches c).toGeometry = (e.caches c).toGeometry
  others : ∀ d, d ≠ c → e'.caches d = e.caches d
  policies : e'.policies = e.policies

theorem looked_call {tag : UWord} (h : p.call opts c n tag e = .ok (miss, e')) :
    Looked c (tag ∈ (e.caches c).row n) miss e e' := by
  obtain ⟨⟨hlt, hassoc⟩, -, -⟩ := Replacement.call_ok h
  obtain ⟨hlen, hpos⟩ := (e.caches c).row_of_lt ⟨hlt, hassoc⟩
  have hspec := refSpec_waysFn opts.bipThrottleParameter p hlen hpos tag e.rand
  rw [p.call_of_lt ⟨hlt, hassoc⟩] at h
  cases h
  refine ⟨hspec.miss_eq_false_iff, fun hheld => ⟨?_, fun m t => ?_⟩, ?_, fun d hd => ?_, rfl⟩
  · dsimp only
    rw [update_self, CacheT2.writeRow_toGeometry]
  · dsimp only
    rw [update_self]
    have hlen' := (hspec.length_eq (by omega)).trans hlen
    rcases eq_or_ne m n with rfl | hne
    · rw [CacheT2.row_writeRow_self _ (by omega) hlt hlen']
      rw [hspec.miss_eq_false_iff.mpr hheld] at hspec
      exact hspec.mem_iff_of_hit
    · rw [CacheT2.row_writeRow_of_ne _ hne hlen']
  · dsimp only
    rw [update_self, CacheT2.writeRow_toGeometry]
  · exact update_of_ne hd _ _

/-- **`cachesim_ref_is_miss` hits iff the blocks it touches are stored.** -/
theorem looked_refIsMiss
    (h : cachesimRefIsMiss opts (.basic p) c a size e = .ok (miss, e')) :
    Looked c (Stored (e.caches c) a size) miss e e' := by
  rw [cachesimRefIsMiss, bind_of_ok (get_run e)] at h
  split at h
  · next hone =>
    have hlook := looked_call h
    rw [Stored, ← hone, and_self]
    exact hlook
  split at h
  · obtain ⟨miss₁, e₁, h₁, h⟩ := bind_eq_ok_iff.mp h
    obtain ⟨miss₂, e₂, h₂, h⟩ := bind_eq_ok_iff.mp h
    cases h
    have hlook₁ := looked_call h₁
    have hlook₂ := looked_call h₂
    have hsecond : (e.caches c).block a ∈ (e.caches c).row ((e.caches c).setOf ((e.caches c).block a))
        → ((e.caches c).lastBlock a size
            ∈ (e₁.caches c).row ((e.caches c).setOf ((e.caches c).lastBlock a size))
          ↔ (e.caches c).lastBlock a size
            ∈ (e.caches c).row ((e.caches c).setOf ((e.caches c).lastBlock a size))) := fun hheld =>
      (hlook₁.same hheld).mem_row _ _
    refine ⟨?_, fun hheld => ?_, hlook₂.geom.trans hlook₁.geom, fun d hd => ?_,
      hlook₂.policies.trans hlook₁.policies⟩
    · rw [Bool.or_eq_false_iff, hlook₁.hit_iff, hlook₂.hit_iff]
      exact and_congr_right hsecond
    · exact (hlook₁.same hheld.1).trans (hlook₂.same ((hsecond hheld.1).mpr hheld.2))
    · exact (hlook₂.others d hd).trans (hlook₁.others d hd)
  · cases h

/-! ## The shadow D1 caches and their histories -/

/-- The D1 half of the shadow policies. -/
@[ext] structure D1Data where
  cache : Fin 4 → CacheT2
  history : Fin 4 → MissHistory

/-- …of an engine. -/
def Engine.d1Data (e : Engine) : D1Data where
  cache i := e.caches (.shadow i .d1)
  history i := (e.policies i).d1

theorem Looked.hasShape {held : Prop} (h : Looked c held miss e e') (he : HasShape sh e) :
    HasShape sh e' := by
  rw [← he]
  refine Shape.ext (funext fun d => ?_) (funext fun i => ?_)
  · rcases eq_or_ne d c with rfl | hne
    · exact h.geom
    · exact congrArg CacheT2.toGeometry (h.others d hne)
  · exact congrArg Policy.isMissFunc (congrFun h.policies i)

/-- A reference to another cache leaves them alone. -/
theorem Looked.d1Data_eq {held : Prop} (h : Looked c held miss e e') (hc : ∀ i, c ≠ .shadow i .d1) :
    e'.d1Data = e.d1Data :=
  D1Data.ext (funext fun i => h.others _ (hc i).symm)
    (funext fun i => congrArg Policy.d1 (congrFun h.policies i))

/-- The effect of a data reference on one policy. -/
structure RefEffect (w : ℤ) (a : Addr) (size : ℕ) (miss : Bool) (C C' : CacheT2)
    (h h' : MissHistory) : Prop where
  hit_iff : miss = false ↔ Stored C a size
  same : miss = false → SameTags C C'
  geom : C'.toGeometry = C.toGeometry
  store : ∃ x, storeMissesHistory w miss h = .ok (x, h')

theorem storeD1_eq_ok {w : ℤ} {v : Bool} {u : PUnit} (h : storeD1 w i v e = .ok (u, e')) :
    ∃ x h', storeMissesHistory w v (e.policies i).d1 = .ok (x, h')
      ∧ e' = e.setPolicy i fun p => { p with d1 := h' } := by
  unfold storeD1 at h
  split at h
  · cases h
  · next x h' hstore =>
    cases h
    exact ⟨x, h', hstore, rfl⟩

/-- Changing a policy changes its D1 history. -/
theorem d1Data_setPolicy (e : Engine) (i : Fin 4) (hf : (f (e.policies i)).d1 = h) :
    (e.setPolicy i f).d1Data = ⟨e.d1Data.cache, update e.d1Data.history i h⟩ := by
  refine D1Data.ext rfl (funext fun j => ?_)
  change (update e.policies i _ j).d1 = update e.d1Data.history i h j
  rcases eq_or_ne j i with rfl | hne
  · rw [update_self, update_self, hf]
  · rw [update_of_ne hne, update_of_ne hne]
    rfl

/-- …or does not. -/
theorem d1Data_setPolicy_of_eq (e : Engine) (i : Fin 4)
    (hf : (f (e.policies i)).d1 = (e.policies i).d1) : (e.setPolicy i f).d1Data = e.d1Data := by
  rw [d1Data_setPolicy e i hf]
  exact D1Data.ext rfl (update_eq_self i e.d1Data.history)

theorem frames_storeLL (w : ℤ) (i : Fin 4) (v : Bool) : Frames Engine.d1Data (storeLL w i v) := by
  intro e u e' h
  unfold storeLL at h
  split at h
  · cases h
  · cases h
    exact d1Data_setPolicy_of_eq e i rfl

/-- The rest of an iteration does not see them. -/
theorem frames_missLL (a : Addr) (size : ℕ) (i : Fin 4)
    (hp : u.setrefIsMiss = .basic p)
    (h : (do
      let missL ← refIsMiss opts (.shadow i .ll) a size
      onEngine (storeLL opts.windowCounter i missL)) u = .ok (x, u')) :
    u'.engine.d1Data = u.engine.d1Data ∧ u'.indexMinMissesPolicy = u.indexMinMissesPolicy := by
  obtain ⟨missL, u₁, h₁, h₂⟩ := bind_eq_ok_iff.mp h
  rw [refIsMiss, bind_of_ok (get_run u), hp] at h₁
  obtain ⟨e₁, he₁, rfl⟩ := onEngine_eq_ok_iff.mp h₁
  obtain ⟨e₂, he₂, rfl⟩ := onEngine_eq_ok_iff.mp h₂
  refine ⟨?_, rfl⟩
  rw [frames_storeLL _ _ _ _ _ _ he₂]
  exact (looked_refIsMiss he₁).d1Data_eq fun j hj => by simp at hj

/-! ## The shadow loop -/

theorem take_policyIndices : ∀ i : Fin 4,
    policyIndices.take (i + 1) = policyIndices.take i ++ [i] := by decide

/-- The state in which the shadow loop of a data reference starts. -/
def Sim.entered (s : Sim L) : Sim L :=
  { s with accessCounter := s.accessCounter + 1, blocks := s.blocks + 1 }

theorem foundMiss_run (a : Addr) (size : ℕ) (i : Fin 4) (s : Sim L) :
    foundMiss opts a size i s
      = ((policyIndices.take i).foldlM (shadowDref opts a size) (2 ^ 64 - 1) >>= fun _ =>
          lookD1 opts a size i) s.entered := rfl

/-- The shadow loop of a data reference that starts in `s`, `k` iterations on. -/
structure Scanned (opts : Options) (sh : Shape) (s : Sim L) (a : Addr) (size k least : ℕ)
    (u : Sim L) : Prop where
  shape : SimShape opts sh u
  done : ∀ i : Fin 4, (i : ℕ) < k →
    RefEffect opts.windowCounter a size (missedBy opts s a size i) (s.engine.d1Data.cache i)
      (u.engine.d1Data.cache i) (s.engine.d1Data.history i) (u.engine.d1Data.history i)
  ahead : ∀ i : Fin 4, k ≤ i → u.engine.d1Data.cache i = s.engine.d1Data.cache i
    ∧ u.engine.d1Data.history i = s.engine.d1Data.history i
  least_le : ∀ i : Fin 4, (i : ℕ) < k →
    least ≤ toULong (u.engine.d1Data.history i).historicMisses
  least_eq : least = 2 ^ 64 - 1
    ∨ least = toULong (u.engine.d1Data.history u.indexMinMissesPolicy).historicMisses
      ∧ (u.indexMinMissesPolicy : ℕ) < k

section Scan

variable (hmode : opts.cacheReplacementPolicy = .fixedWindow) (hreg : sh.Regular)
include hmode hreg

/-- **One iteration of the shadow loop.** -/
theorem shadowDref_ok {least least' : ℕ} (hu : SimShape opts sh u)
    (h : shadowDref opts a size least i u = .ok (least', u')) :
    ∃ miss v, lookD1 opts a size i u = .ok (miss, v)
      ∧ RefEffect opts.windowCounter a size miss (u.engine.d1Data.cache i)
          (u'.engine.d1Data.cache i) (u.engine.d1Data.history i) (u'.engine.d1Data.history i)
      ∧ (∀ j, j ≠ i → u'.engine.d1Data.cache j = u.engine.d1Data.cache j
          ∧ u'.engine.d1Data.history j = u.engine.d1Data.history j)
      ∧ (least', u'.indexMinMissesPolicy)
          = if toULong (u'.engine.d1Data.history i).historicMisses < least
            then (toULong (u'.engine.d1Data.history i).historicMisses, i)
            else (least, u.indexMinMissesPolicy) := by
  have hfunc := hu.isMissFunc_eq hreg i
  have hset : ∀ f, setSetref f u = .ok (⟨⟩, { u with setrefIsMiss := f }) := fun _ => rfl
  rw [shadowDref, bind_of_ok (get_run u), bind_of_ok (hset _), hfunc] at h
  obtain ⟨miss, v, hlook, h⟩ := bind_eq_ok_iff.mp h
  refine ⟨miss, v, ?_, ?_⟩
  · rw [lookD1, bind_of_ok (get_run u), bind_of_ok (hset _), hfunc]
    exact hlook
  rw [refIsMiss, bind_of_ok (get_run _)] at hlook
  obtain ⟨e₁, he₁, rfl⟩ := onEngine_eq_ok_iff.mp hlook
  have hlooked := looked_refIsMiss he₁
  obtain ⟨x, v₂, hstore, h⟩ := bind_eq_ok_iff.mp h
  obtain ⟨e₂, he₂, rfl⟩ := onEngine_eq_ok_iff.mp hstore
  obtain ⟨y, h', hh', rfl⟩ := storeD1_eq_ok he₂
  obtain ⟨x, v₃, hll, h⟩ := bind_eq_ok_iff.mp h
  generalize hv₂ : ({ u with
    setrefIsMiss := .basic (missFunctions i)
    engine := e₁.setPolicy i fun p => { p with d1 := h' } } : Sim L) = v₂ at hll
  have hrest : v₃.engine.d1Data = v₂.engine.d1Data
      ∧ v₃.indexMinMissesPolicy = v₂.indexMinMissesPolicy := by
    split at hll
    · exact frames_missLL a size i (by rw [← hv₂]) hll
    · cases hll
      exact ⟨rfl, rfl⟩
  have hcache : ∀ j, v₃.engine.d1Data.cache j = e₁.caches (.shadow j .d1) := by
    rw [hrest.1, ← hv₂]
    exact fun _ => rfl
  have hhistory : v₃.engine.d1Data.history = update u.engine.d1Data.history i h' := by
    rw [hrest.1, ← hv₂, d1Data_setPolicy e₁ i rfl]
    exact congrArg (update · i h')
      (funext fun j => congrArg Policy.d1 (congrFun hlooked.policies j))
  rw [hlooked.policies] at hh'
  have hindex : v₃.indexMinMissesPolicy = u.indexMinMissesPolicy := by rw [hrest.2, ← hv₂]
  have hdata : u'.engine.d1Data = v₃.engine.d1Data ∧ (least', u'.indexMinMissesPolicy)
      = if toULong (v₃.engine.d1Data.history i).historicMisses < least
        then (toULong (v₃.engine.d1Data.history i).historicMisses, i)
        else (least, u.indexMinMissesPolicy) := by
    rw [bind_of_ok (get_run v₃)] at h
    have hcost : cost opts (v₃.engine.policies i) = (v₃.engine.d1Data.history i).historicMisses :=
      if_neg (by rw [hmode]; exact CgCachePolicy.noConfusion)
    rw [hcost] at h
    split at h
    · cases h
      rw [if_pos ‹_›]
      exact ⟨rfl, rfl⟩
    · cases h
      rw [if_neg ‹_›, hindex]
      exact ⟨rfl, rfl⟩
  rw [hdata.1]
  refine ⟨⟨hlooked.hit_iff, fun hmiss => ?_, ?_, y, ?_⟩, fun j hj => ⟨?_, ?_⟩, hdata.2⟩
  · rw [hcache]
    exact hlooked.same (hlooked.hit_iff.mp hmiss)
  · rw [hcache]
    exact hlooked.geom
  · rw [hhistory, update_self]
    exact hh'
  · rw [hcache]
    exact hlooked.others _ (by simp [hj])
  · rw [hhistory, update_of_ne hj]

/-- **One iteration on.** -/
theorem Scanned.step {least least' : ℕ} (hu : Scanned opts sh s a size i least u)
    (hfold : (policyIndices.take i).foldlM (shadowDref opts a size) (2 ^ 64 - 1) s.entered
      = .ok (least, u))
    (h : shadowDref opts a size least i u = .ok (least', u')) :
    Scanned opts sh s a size (i + 1) least' u' := by
  obtain ⟨miss, v, hlook, heffect, hothers, hleast⟩ := shadowDref_ok hmode hreg hu.shape h
  have hmissed : missedBy opts s a size i = miss := by
    rw [missedBy, foundMiss_run, bind_of_ok hfold, hlook]
  obtain ⟨hcache, hhistory⟩ := hu.ahead i le_rfl
  rw [hcache, hhistory, ← hmissed] at heffect
  have hlt : ∀ j : Fin 4, (j : ℕ) < i + 1 → j ≠ i → (j : ℕ) < i := fun j hj hne =>
    lt_of_le_of_ne (le_of_lt_succ hj) fun heq => hne (Fin.ext heq)
  have hle : least' ≤ least ∧ least' ≤ toULong (u'.engine.d1Data.history i).historicMisses := by
    split at hleast
    · rw [(mk.inj hleast).1]
      exact ⟨le_of_lt ‹_›, le_rfl⟩
    · rw [(mk.inj hleast).1]
      exact ⟨le_rfl, not_lt.mp ‹_›⟩
  refine ⟨(simKeeps_shadowDref hreg a size least i).ok hu.shape h, fun j hj => ?_, fun j hj => ?_,
    fun j hj => ?_, ?_⟩
  · rcases eq_or_ne j i with rfl | hne
    · exact heffect
    · rw [(hothers j hne).1, (hothers j hne).2]
      exact hu.done j (hlt j hj hne)
  · have hne : j ≠ i := fun heq => by rw [heq] at hj; omega
    rw [(hothers j hne).1, (hothers j hne).2]
    exact hu.ahead j (by omega)
  · rcases eq_or_ne j i with rfl | hne
    · exact hle.2
    · rw [(hothers j hne).2]
      exact hle.1.trans (hu.least_le j (hlt j hj hne))
  · split at hleast
    · rw [mk.injEq] at hleast
      rw [hleast.1, hleast.2]
      exact .inr ⟨rfl, lt_succ_self _⟩
    · rw [mk.injEq] at hleast
      rw [hleast.1, hleast.2]
      refine hu.least_eq.imp id fun ⟨heq, hlt'⟩ => ⟨?_, hlt'.trans (lt_succ_self _)⟩
      rw [(hothers _ fun hne => by rw [hne] at hlt'; exact lt_irrefl _ hlt').2]
      exact heq

theorem scanned_of_ok (hs : SimShape opts sh s) : ∀ (k : ℕ), k ≤ 4 → ∀ {least : ℕ} {u : Sim L},
      (policyIndices.take k).foldlM (shadowDref opts a size) (2 ^ 64 - 1) s.entered
        = .ok (least, u) → Scanned opts sh s a size k least u
  | 0, _, least, u, h => by
    cases h
    exact ⟨hs, fun i hi => absurd hi (Nat.not_lt_zero _), fun i _ => ⟨rfl, rfl⟩,
      fun i hi => absurd hi (Nat.not_lt_zero _), .inl rfl⟩
  | k + 1, hk, least, u, h => by
    have htake := take_policyIndices ⟨k, hk⟩
    dsimp only at htake
    rw [htake] at h
    obtain ⟨least₀, u₀, hfold, h⟩ := foldlM_concat_eq_ok_iff.mp h
    exact (scanned_of_ok hs k (by omega) hfold).step hmode hreg hfold h

end Scan

/-- The data misses the line counters report. -/
def reportedMisses [Fintype L] (lines : L → LineCC) : ℕ :=
  ∑ l, ((lines l).Dr.m1 + (lines l).Dw.m1)

/-! ## The end of a window -/

/-- The D1 half of `cleanPolicy`. -/
def cleanHistory (opts : Options) (h : MissHistory) : MissHistory :=
  { h with arrayMisses := freshArray opts, historicMisses := 0, misses := 0 }

theorem copyLevel_eq_ok (hreg : sh.Regular) {l : Level} (he : HasShape sh e)
    (h : copyLevel source i l e = .ok (x, e')) :
    e' = { e with caches := update e.caches (.shadow i l) (e.caches (.shadow source l)) } := by
  unfold copyLevel at h
  split at h
  · cases h
  · next c hc =>
    cases h
    rw [copyCaches_eq_ok hreg he hc]

/-- **The caches of the best policy are copied.** -/
theorem copyPolicyCaches_ok (hreg : sh.Regular) (hv : HasShape sh v.engine)
    (h : copyPolicyCaches source i v = .ok (x, v')) : v'.engine.d1Data.cache
        = update v.engine.d1Data.cache i (v.engine.d1Data.cache source)
      ∧ v'.engine.d1Data.history = v.engine.d1Data.history ∧ v'.lines = v.lines
      ∧ v'.indexMinMissesPolicy = v.indexMinMissesPolicy ∧ v'.missesI = v.missesI := by
  obtain ⟨_, v₁, h₁, h⟩ := bind_eq_ok_iff.mp h
  obtain ⟨_, v₂, h₂, h⟩ := bind_eq_ok_iff.mp h
  obtain ⟨_, v₃, h₃, h⟩ := bind_eq_ok_iff.mp h
  cases h
  obtain ⟨e₁, he₁, rfl⟩ := onEngine_eq_ok_iff.mp h₁
  obtain ⟨e₂, he₂, rfl⟩ := onEngine_eq_ok_iff.mp h₂
  obtain ⟨e₃, he₃, rfl⟩ := onEngine_eq_ok_iff.mp h₃
  have hs₁ := (keepsShape_copyLevel hreg source i .i1).ok hv he₁
  have hs₂ := (keepsShape_copyLevel hreg source i .d1).ok hs₁ he₂
  have hpolicies : e₃.policies = v.engine.policies := by
    rw [copyLevel_eq_ok hreg hs₂ he₃, copyLevel_eq_ok hreg hs₁ he₂, copyLevel_eq_ok hreg hv he₁]
  refine ⟨funext fun j => ?_, funext fun j => congrArg (fun p => (p j).d1) hpolicies, rfl,
    rfl, rfl⟩
  change e₃.caches (.shadow j .d1) = update v.engine.d1Data.cache i _ j
  rw [copyLevel_eq_ok hreg hs₂ he₃]
  dsimp only
  rw [update_of_ne (by simp), copyLevel_eq_ok hreg hs₁ he₂]
  dsimp only
  have hfirst : ∀ j, e₁.caches (.shadow j .d1) = v.engine.d1Data.cache j := by
    intro j
    rw [copyLevel_eq_ok hreg hv he₁]
    dsimp only
    rw [update_of_ne (by simp)]
    rfl
  rcases eq_or_ne j i with rfl | hne
  · rw [update_self, update_self, hfirst]
  · rw [update_of_ne (by simp [hne]), update_of_ne hne, hfirst]

section

variable [DecidableEq L] [Fintype L]

/-- Adding to a `CacheCC` adds to the report unless it is for instructions. -/
theorem reportedMisses_addCC (m : CCRef L) (da d1 dL : ℕ) (lines : L → LineCC) :
    reportedMisses (addCC m da d1 dL lines)
      = reportedMisses lines + if m.kind = .ir then 0 else d1 := by
  rw [reportedMisses, reportedMisses, Fintype.sum_eq_add_sum_compl m.line,
    Fintype.sum_eq_add_sum_compl m.line fun l => (lines l).Dr.m1 + (lines l).Dw.m1]
  have hrest : ∑ l ∈ {m.line}ᶜ, ((addCC m da d1 dL lines l).Dr.m1
      + (addCC m da d1 dL lines l).Dw.m1) = ∑ l ∈ {m.line}ᶜ, ((lines l).Dr.m1 + (lines l).Dw.m1) := by
    refine Finset.sum_congr rfl fun l hl => ?_
    rw [addCC, update_of_ne (by simpa using hl)]
  rw [hrest, addCC, update_self]
  obtain ⟨line, kind⟩ := m
  cases kind with
  | ir => simp [LineCC.modify]
  | dr | dw => simp only [LineCC.modify, reduceCtorEq, if_false]; omega

/-- **The misses of the best policy are reported.** -/
theorem transferMisses_ok (hm : m.kind ≠ .ir) (hinstr : ∀ mI ∈ v.missesI, mI.kind = .ir)
    (h : transferMisses m i v = .ok (x, v')) : v'.engine.d1Data = v.engine.d1Data
      ∧ reportedMisses v'.lines = reportedMisses v.lines + (v.engine.d1Data.history i).misses
      ∧ v'.indexMinMissesPolicy = v.indexMinMissesPolicy ∧ v'.missesI = v.missesI := by
  have hdata := d1Data_setPolicy_of_eq v.engine i
    (f := fun p => { p with uses := p.uses + 1 }) rfl
  obtain ⟨_, v₁, h₁, h⟩ := bind_eq_ok_iff.mp h
  cases h₁
  rw [bind_of_ok (get_run _)] at h
  obtain ⟨_, v₂, h₂, h⟩ := bind_eq_ok_iff.mp h
  cases h₂
  dsimp only at h
  cases hmI : v.missesI with
  | none =>
    rw [hmI] at h
    cases h
  | some mI =>
    rw [hmI] at h
    cases h
    refine ⟨hdata, ?_, rfl, rfl⟩
    dsimp only
    rw [reportedMisses_addCC, if_pos (hinstr mI hmI), reportedMisses_addCC, if_neg hm, add_zero]
    exact congrArg (fun d : D1Data => reportedMisses v.lines + (d.history i).misses) hdata

/-- The loop that closes the window of the state `u`, `k` iterations on. -/
structure Closing (opts : Options) (sh : Shape) (u : Sim L) (k : ℕ) (v : Sim L) : Prop where
  shape : SimShape opts sh v
  index_eq : v.indexMinMissesPolicy = u.indexMinMissesPolicy
  missesI_eq : v.missesI = u.missesI
  done : ∀ i : Fin 4, (i : ℕ) < k →
    v.engine.d1Data.cache i = u.engine.d1Data.cache u.indexMinMissesPolicy
      ∧ v.engine.d1Data.history i = cleanHistory opts (u.engine.d1Data.history i)
  ahead : ∀ i : Fin 4, k ≤ i → v.engine.d1Data.cache i = u.engine.d1Data.cache i
    ∧ v.engine.d1Data.history i = u.engine.d1Data.history i
  reported_eq : reportedMisses v.lines = reportedMisses u.lines
    + if (u.indexMinMissesPolicy : ℕ) < k then
        (u.engine.d1Data.history u.indexMinMissesPolicy).misses else 0

omit [DecidableEq L] in
/-- The best policy's cache is where it was all through the loop. -/
theorem Closing.cache_best {k : ℕ} (h : Closing opts sh u k v) :
    v.engine.d1Data.cache u.indexMinMissesPolicy
      = u.engine.d1Data.cache u.indexMinMissesPolicy := by
  rcases lt_or_ge (u.indexMinMissesPolicy : ℕ) k with hlt | hge
  · exact (h.done _ hlt).1
  · exact (h.ahead _ hge).1

variable (hreg : sh.Regular) (hm : m.kind ≠ .ir)
include hreg hm

/-- **One iteration of the loop that closes a window.** -/
theorem closePolicy_ok (hv : SimShape opts sh v)
    (hinstr : ∀ mI ∈ v.missesI, mI.kind = .ir) (h : closePolicy opts m i v = .ok (x, v')) :
    v'.engine.d1Data.cache = update v.engine.d1Data.cache i
          (v.engine.d1Data.cache v.indexMinMissesPolicy)
      ∧ v'.engine.d1Data.history = update v.engine.d1Data.history i
          (cleanHistory opts (v.engine.d1Data.history i))
      ∧ reportedMisses v'.lines = reportedMisses v.lines
          + (if i = v.indexMinMissesPolicy then (v.engine.d1Data.history i).misses else 0)
      ∧ v'.indexMinMissesPolicy = v.indexMinMissesPolicy ∧ v'.missesI = v.missesI := by
  rw [closePolicy, bind_of_ok (get_run v)] at h
  obtain ⟨_, v₁, h₁, h⟩ := bind_eq_ok_iff.mp h
  cases h
  have hclean := d1Data_setPolicy v₁.engine i (f := cleanPolicy opts)
    (h := cleanHistory opts (v₁.engine.d1Data.history i)) rfl
  dsimp only
  rw [hclean]
  split at h₁
  · next hne =>
    obtain ⟨hcache, hhistory, hlines, hindex, hmissesI⟩ := copyPolicyCaches_ok hreg hv.1 h₁
    refine ⟨hcache, ?_, ?_, hindex, hmissesI⟩
    · rw [hhistory]
    · rw [if_neg hne, add_zero, hlines]
  · next heq =>
    obtain rfl := not_not.mp heq
    obtain ⟨hdata, hreported, hindex, hmissesI⟩ := transferMisses_ok hm hinstr h₁
    refine ⟨?_, ?_, ?_, hindex, hmissesI⟩
    · rw [hdata, update_eq_self]
    · rw [hdata]
    · rw [if_pos rfl]
      exact hreported

variable (hinstr : ∀ mI ∈ u.missesI, mI.kind = .ir)
include hinstr

/-- …and its place in the loop. -/
theorem Closing.step (hv : Closing opts sh u i v) (h : closePolicy opts m i v = .ok (x, v')) :
    Closing opts sh u (i + 1) v' := by
  obtain ⟨hcache, hhistory, hreported, hindex, hmissesI⟩ :=
    closePolicy_ok hreg hm hv.shape (by rw [hv.missesI_eq]; exact hinstr) h
  rw [hv.index_eq, hv.cache_best] at hcache
  rw [(hv.ahead i le_rfl).2] at hhistory hreported
  rw [hv.index_eq] at hindex hreported
  refine ⟨?_, hindex, hmissesI.trans hv.missesI_eq, fun j hj => ?_, fun j hj => ?_, ?_⟩
  · exact (simKeeps_closePolicy hreg m i).ok hv.shape h
  · rcases eq_or_ne j i with rfl | hne
    · rw [hcache, hhistory, update_self, update_self]
      exact ⟨rfl, rfl⟩
    · rw [hcache, hhistory, update_of_ne hne, update_of_ne hne]
      exact hv.done j (lt_of_le_of_ne (le_of_lt_succ hj) fun heq => hne (Fin.ext heq))
  · have hne : j ≠ i := fun heq => by rw [heq] at hj; omega
    rw [hcache, hhistory, update_of_ne hne, update_of_ne hne]
    exact hv.ahead j (by omega)
  · rw [hreported, hv.reported_eq, add_assoc]
    congr 1
    rcases eq_or_ne i u.indexMinMissesPolicy with heq | hne
    · rw [if_pos heq, if_neg (by rw [← heq]; exact lt_irrefl _), if_pos (by rw [← heq]; omega), heq,
        zero_add]
    · rw [if_neg hne, add_zero]
      have : (i : ℕ) ≠ u.indexMinMissesPolicy := fun heq => hne (Fin.ext heq)
      exact if_congr (by omega) rfl rfl

/-- The whole loop. -/
theorem closing_of_ok (hu : SimShape opts sh u) : ∀ (k : ℕ), k ≤ 4 →
    ∀ {v : Sim L}, (policyIndices.take k).forM (closePolicy opts m) u = .ok (⟨⟩, v) →
      Closing opts sh u k v
  | 0, _, v, h => by
    cases h
    exact ⟨hu, rfl, rfl, fun i hi => absurd hi (Nat.not_lt_zero _), fun i _ => ⟨rfl, rfl⟩, rfl⟩
  | k + 1, hk, v, h => by
    have htake := take_policyIndices ⟨k, hk⟩
    dsimp only at htake
    rw [htake] at h
    obtain ⟨v₀, hloop, h⟩ := forM_concat_eq_ok_iff.mp h
    have hv₀ := closing_of_ok hu k (by omega) hloop
    exact hv₀.step hreg hm hinstr (i := ⟨k, hk⟩) h

/-- **The end of a window.** -/
theorem closeWindow_ok (hu : SimShape opts sh u) (h : closeWindow opts m u = .ok (x, u')) :
    Closing opts sh u 4 u' ∧ u'.blocks = 0 := by
  obtain ⟨_, v, hloop, h⟩ := bind_eq_ok_iff.mp h
  obtain ⟨_, v₁, h₁, h⟩ := bind_eq_ok_iff.mp h
  cases h₁
  cases h
  have hv := closing_of_ok hreg hm hinstr hu 4 le_rfl hloop
  exact ⟨{ hv with }, rfl⟩

end

end Valgrind.Cachegrind
