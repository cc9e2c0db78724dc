import Valgrind.Helgrind.VTS

/-!
# Helgrind/Clock — vector timestamps as the values that identifiers denote

A `VtsID` stands for a vector timestamp, and two of them are equal iff the timestamps are.  Here it
*is* the timestamp: a `Clock` has the entries, with the proof that they are sane.  Clocks are
ordered pointwise and have joins; `Clock.join2`, `Clock.tick` and `Clock.cmpLEQ` run the array code
on `temp_max_sized_VTS`, and either return what the order says or end the process at a limit.
-/

namespace Valgrind.Helgrind

open Alignment VTS

/-- A sane vector timestamp. -/
structure Clock where
  ts : List ScalarTS
  increasing : Increasing ScalarTS.thrid ts
  pos : ∀ st ∈ ts, st.tym ≠ 0
deriving DecidableEq

namespace Clock

/-- The array of a timestamp, as `VTS__clone` makes it. -/
def toVTS (c : Clock) : VTS where
  id := 0
  sizeTS := c.ts.length
  ts := c.ts

theorem toVTS_sane (c : Clock) : c.toVTS.Sane := ⟨c.increasing, c.pos, le_rfl⟩

/-- `VtsID__indexAt`. -/
def indexAt (c : Clock) (idx : ThrID) : ℕ := c.toVTS.indexAt idx

/-- `temp_max_sized_VTS`, cleared. -/
def tempMaxSizedVTS : VTS := VTS.new thrIDMaxValid

/-- The timestamp in an array; the operations have asserted that it is sane. -/
def ofVTS (vts : VTS) : Except Abort Clock :=
  if h : vts.isSane then
    .ok ⟨vts.ts, ((VTS.isSane_iff vts).mp h).increasing, ((VTS.isSane_iff vts).mp h).pos⟩
  else .error .assertion

/-- `VtsID__cmpLEQ`, computed. -/
def cmpLEQ (vi1 vi2 : Clock) : Except Abort Bool :=
  if vi1 = vi2 then .ok true
  else do return (← VTS.cmpLEQ vi1.toVTS vi2.toVTS) = 0

/-- `VtsID__join2`, computed. -/
def join2 (vi1 vi2 : Clock) : Except Abort Clock :=
  if vi1 = vi2 then .ok vi1
  else do ofVTS (← VTS.join tempMaxSizedVTS vi1.toVTS vi2.toVTS)

/-- `VtsID__mk_Singleton`. -/
def mkSingleton (thr : ThrID) (tym : Fin (2 ^ 46)) : Except Abort Clock := do
  ofVTS (← VTS.singleton tempMaxSizedVTS thr tym)

/-- `VtsID__tick`. -/
def tick (vi : Clock) (idx : ThrID) : Except Abort Clock := do
  ofVTS (← VTS.tick tempMaxSizedVTS idx vi.toVTS)

/-- `VTS__subtract`, where a table is pruned. -/
def subtract (c : Clock) (thridsToDel : List ThrID) : Except Abort Clock := do
  let res ← c.toVTS.subtract thridsToDel
  vgAssert (res.sizeTS = res.usedTS)
  ofVTS res

/-! ## The order of clocks -/

section Order

variable {a b : Clock}

theorem ext_iff_indexAt : a = b ↔ ∀ t, a.indexAt t = b.indexAt t := by
  refine ⟨fun h _ => by rw [h], fun h => ?_⟩
  have hts : a.ts = b.ts := (ts_eq_iff a.toVTS_sane b.toVTS_sane).mpr h
  cases a
  cases b
  cases hts
  rfl

instance : PartialOrder Clock :=
  PartialOrder.lift indexAt fun _ _ h => ext_iff_indexAt.mpr (congrFun h)

theorem le_def : a ≤ b ↔ ∀ t, a.indexAt t ≤ b.indexAt t := Iff.rfl

/-- The join of two clocks: the entries of both, in order. -/
def sup (a b : Clock) : Clock where
  ts := VTS.joinedAll a.ts b.ts
  increasing := VTS.increasing_joinedAll a.increasing b.increasing
  pos := VTS.joinedAll_pos a.increasing b.increasing a.pos b.pos

theorem indexAt_sup (t : ThrID) : (sup a b).indexAt t = max (a.indexAt t) (b.indexAt t) :=
  indexAtLoop_joinedAll a.increasing b.increasing t

instance : SemilatticeSup Clock where
  sup := sup
  le_sup_left _ _ t := (le_max_left _ _).trans_eq (indexAt_sup t).symm
  le_sup_right _ _ t := (le_max_right _ _).trans_eq (indexAt_sup t).symm
  sup_le _ _ _ ha hb t := (indexAt_sup t).trans_le (max_le (ha t) (hb t))

@[simp] theorem indexAt_sup' (a b : Clock) (t : ThrID) :
    (a ⊔ b).indexAt t = max (a.indexAt t) (b.indexAt t) := indexAt_sup t

/-- Only the entries of the smaller clock have to be looked at. -/
theorem le_iff_entries : a ≤ b ↔ ∀ st ∈ a.ts, st.tym.val ≤ b.indexAt st.thrid := by
  rw [le_def]
  constructor
  · intro h st hst
    exact (indexAtLoop_of_mem a.increasing hst).symm.trans_le (h st.thrid)
  · intro h t
    rcases indexAtLoop_cases a.increasing t with ⟨st, hst, rfl, heq⟩ | ⟨-, heq⟩
    · exact heq.trans_le (h st hst)
    · exact heq.trans_le zero_le

instance : DecidableLE Clock := fun _ _ => decidable_of_iff _ le_iff_entries.symm

end Order

/-! ## What the operations return -/

section

variable {a b : Clock}

theorem ofVTS_of_sane {vts : VTS} (h : vts.Sane) :
    ∃ c, ofVTS vts = .ok c ∧ ∀ t, c.indexAt t = vts.indexAt t :=
  ⟨_, dif_pos ((isSane_iff vts).mpr h), fun _ => rfl⟩

/-- `VtsID__cmpLEQ` decides the order. -/
theorem cmpLEQ_eq (a b : Clock) : cmpLEQ a b = .ok (decide (a ≤ b)) := by
  rw [cmpLEQ]
  split_ifs with heq
  · rw [decide_eq_true heq.le]
  · obtain ⟨r, hok, hr, -⟩ := cmpLEQ_spec a.toVTS_sane b.toVTS_sane
    rw [hok, ok_bind, pure_eq_ok]
    exact congrArg Except.ok (decide_eq_decide.mpr hr)

/-- **`VtsID__join2` is the join**, as long as the arrays together are not too long. -/
theorem join2_eq (hlim : a.ts.length + b.ts.length < thrIDMaxValid) : join2 a b = .ok (a ⊔ b) := by
  rw [join2]
  split_ifs with heq
  · rw [heq, sup_idem]
  · obtain ⟨out, hok, hsane, -, hindex⟩ := VTS.join_spec a.toVTS_sane b.toVTS_sane
      (show tempMaxSizedVTS.ts = [] from rfl) hlim.le hlim
    obtain ⟨c, hc, hcindex⟩ := ofVTS_of_sane hsane
    rw [hok, ok_bind, hc]
    refine congrArg Except.ok (ext_iff_indexAt.mpr fun t => ?_)
    rw [hcindex, hindex, indexAt_sup']
    rfl

/-- `VtsID__join2` is the join, or the process ends. -/
theorem join2_cases (a b : Clock) :
    join2 a b = scalartsLimitationsFail true ∨ join2 a b = .ok (a ⊔ b) := by
  by_cases hlim : a.ts.length + b.ts.length < thrIDMaxValid
  · exact .inr (join2_eq hlim)
  · rw [join2]
    split_ifs with heq
    · rw [heq, sup_idem]
      exact .inr rfl
    · have hfail : tempMaxSizedVTS.join a.toVTS b.toVTS = scalartsLimitationsFail true :=
        join_limit rfl (not_lt.mp hlim)
      rw [hfail]
      exact .inl rfl

theorem usedTS_le_temp (a : Clock) : 1 + a.toVTS.usedTS ≤ tempMaxSizedVTS.sizeTS := by
  rw [add_comm]
  exact a.toVTS_sane.usedTS_lt

/-- `VtsID__tick` adds one to a component that has room for it. -/
theorem tick_of_lt {idx : ThrID} (hlim : a.indexAt idx < 2 ^ 46 - 2) : ∃ c, a.tick idx = .ok c
    ∧ ∀ t, c.indexAt t = a.indexAt t + if t = idx then 1 else 0 := by
  obtain ⟨out, hok, hsane, -, hindex⟩ := VTS.tick_spec a.toVTS_sane
    (show tempMaxSizedVTS.ts = [] from rfl) a.usedTS_le_temp hlim
  obtain ⟨c, hc, hcindex⟩ := ofVTS_of_sane hsane
  refine ⟨c, ?_, fun t => (hcindex t).trans (hindex t)⟩
  rw [tick, hok, ok_bind, hc]

/-- **`VtsID__tick` adds one to a component**, or the process ends. -/
theorem tick_cases (a : Clock) (idx : ThrID) :
    a.tick idx = scalartsLimitationsFail false
      ∨ ∃ c, a.tick idx = .ok c
        ∧ ∀ t, c.indexAt t = a.indexAt t + if t = idx then 1 else 0 := by
  by_cases hlim : a.indexAt idx < 2 ^ 46 - 2
  · exact .inr (tick_of_lt hlim)
  · rw [tick, tick_limit a.toVTS_sane (show tempMaxSizedVTS.ts = [] from rfl) a.usedTS_le_temp
      (not_lt.mp hlim)]
    exact .inl rfl

/-- The clock without some threads. -/
theorem subtract_spec (c : Clock) {thridsToDel : List ThrID}
    (hdel : thridsToDel.Pairwise (· < ·)) : ∃ c', c.subtract thridsToDel = .ok c'
      ∧ ∀ t, c'.indexAt t = if t ∈ thridsToDel then 0 else c.indexAt t := by
  obtain ⟨res, hok, hsane, hfull, hindex⟩ := VTS.subtract_spec hdel c.toVTS_sane
  obtain ⟨c', hc', hcindex⟩ := ofVTS_of_sane hsane
  refine ⟨c', ?_, fun t => (hcindex t).trans (hindex t)⟩
  rw [subtract, hok, ok_bind, vgAssert_bind hfull.symm, hc']

end

end Clock

end Valgrind.Helgrind
