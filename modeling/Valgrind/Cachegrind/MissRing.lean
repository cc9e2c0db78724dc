import Valgrind.Cachegrind.WindowLoop

/-!
# Cachegrind/MissRing — the miss history as a sliding window

`store_misses_history` keeps the last `window_counter` outcomes of a level in a ring and counts the
misses among them (`Slides`).  A window of one is the exception: the function returns at once, and
nothing is counted (`miss_history_iff`).
-/

namespace Valgrind.Cachegrind

open List Policy

variable {w m₀ : ℕ} {past : List Bool} {h : MissHistory} {i : Fin 4} {e : Engine}

/-! ## The ring -/

/-- The last `w` outcomes, after as many hits as there is room for. -/
def ringOf (w : ℕ) (past : List Bool) : List Bool :=
  (List.replicate w false ++ past).drop past.length

theorem length_ringOf : (ringOf w past).length = w := by simp [ringOf]

theorem count_ringOf : (ringOf w past).count true = (past.drop (past.length - w)).count true := by
  simp [ringOf, drop_append, count_append, count_replicate]

theorem ringOf_concat (hw : 0 < w) (v : Bool) :
    ringOf w (past ++ [v]) = (ringOf w past).tail ++ [v] := by
  rw [ringOf, ringOf, ← append_assoc, tail_drop, length_append,
    length_singleton, drop_append_of_le_length]
  simp
  omega

/-- A history that began with `m₀` misses and was fed the outcomes `past`: the array has the newer
part of the ring before the counter, and the older part from there on. -/
structure Slides (w m₀ : ℕ) (past : List Bool) (h : MissHistory) : Prop where
  misses_eq : h.misses = m₀ + past.count true
  historic_eq : h.historicMisses = (ringOf w past).count true
  ring : ∃ newer older, older ≠ [] ∧ older ++ newer = ringOf w past
    ∧ h.arrayMisses = (newer ++ older).map (fun b => (b.toNat : ℤ))
    ∧ h.bitResultCounter = newer.length

/-- **An outcome takes the place of the oldest one.** -/
theorem Slides.store (hw : 2 ≤ w) (hs : Slides w m₀ past h) (v : Bool) :
    ∃ x h', storeMissesHistory w v h = .ok (x, h') ∧ Slides w m₀ (past ++ [v]) h' := by
  obtain ⟨hmisses, hhistoric, newer, older, hne, hring, harray, hcounter⟩ := hs
  obtain ⟨old, older, rfl⟩ := exists_cons_of_ne_nil hne
  have hnext : ringOf w (past ++ [v]) = older ++ newer ++ [v] := by
    rw [ringOf_concat (by omega), ← hring]
    rfl
  have hlen : (older ++ newer ++ [v]).length = w := hnext ▸ length_ringOf
  have hle : (older ++ newer ++ [v]).count true ≤ w := hlen ▸ count_le_length
  rw [length_append, length_append, length_singleton] at hlen
  refine ⟨_, _, storeMissesHistory_eq (n := (ringOf w (past ++ [v])).count true)
    (by omega) old (by simp [harray, hcounter]) ?_ (by rw [hnext]; exact_mod_cast hle), ?_, rfl, ?_⟩
  · rw [hhistoric, ← hring, hnext]
    cases v <;> cases old <;> simp <;> ring
  · rw [hmisses]
    cases v <;> simp [add_assoc]
  · rw [hnext, harray, hcounter]
    obtain rfl | hne := eq_or_ne older []
    · refine ⟨[], newer ++ [v], by simp, by simp, by simp, if_pos ?_⟩
      rw [← hlen]
      simp
    · have hpos := length_pos_iff.mpr hne
      exact ⟨newer ++ [v], older, hne, by simp, by simp, by simp; omega⟩

/-- The history tells how many of the last `w` outcomes, and how many of all, were misses. -/
def Tells (w m₀ : ℕ) (past : List Bool) (h : MissHistory) : Prop :=
  h.historicMisses = (past.drop (past.length - w)).count true ∧ h.misses = m₀ + past.count true

theorem Slides.tells (hs : Slides w m₀ past h) : h.bitResultCounter < w ∧ Tells w m₀ past h := by
  obtain ⟨hmisses, hhistoric, newer, older, hne, hring, -, hcounter⟩ := hs
  have hlen : (older ++ newer).length = w := hring ▸ length_ringOf
  have hpos := length_pos_iff.mpr hne
  rw [length_append] at hlen
  exact ⟨by omega, by rw [hhistoric, count_ringOf], hmisses⟩

/-! ## A window of any size -/

/-- What any calls make of a fresh history: a window of one leaves it as it is. -/
def Fed (w m₀ : ℕ) (past : List Bool) (h : MissHistory) : Prop :=
  if w = 1 then h = ⟨[0], m₀, 0, 0, 0⟩ else Slides w m₀ past h

theorem fed_init {opts : Options} (hw : opts.windowCounter = w) (hpos : 1 ≤ w) (m₀ : ℕ) :
    Fed w m₀ [] (.init opts m₀) := by
  have hinit : MissHistory.init opts m₀ = ⟨List.replicate w 0, m₀, 0, 0, 0⟩ := by
    rw [MissHistory.init, freshArray, hw, Int.toNat_natCast]
  rw [Fed, hinit]
  split_ifs with h1
  · rw [h1, replicate_one]
  · refine ⟨rfl, by simp [ringOf, count_replicate], [], List.replicate w false, ?_,
      by simp [ringOf], by simp, rfl⟩
    rw [Ne, replicate_eq_nil_iff]
    omega

theorem Fed.store (hpos : 1 ≤ w) (hf : Fed w m₀ past h) (v : Bool) :
    ∃ x h', storeMissesHistory w v h = .ok (x, h') ∧ Fed w m₀ (past ++ [v]) h' := by
  rw [Fed] at hf
  split_ifs at hf with h1
  · exact ⟨_, h, by rw [storeMissesHistory, if_pos (by rw [h1]; rfl)], by rwa [Fed, if_pos h1]⟩
  · obtain ⟨x, h', hok, hs⟩ := hf.store (by omega) v
    exact ⟨x, h', hok, by rwa [Fed, if_neg h1]⟩

theorem Fed.tells_iff (hf : Fed w m₀ past h) :
    h.bitResultCounter < w ∧ (Tells w m₀ past h ↔ w ≠ 1 ∨ true ∉ past) := by
  rw [Fed] at hf
  split_ifs at hf with h1
  · subst hf h1
    have hle := (drop_sublist (past.length - 1) past).count_le true
    rw [Tells, ← count_eq_zero]
    dsimp only
    omega
  · exact ⟨hf.tells.1, iff_of_true hf.tells.2 (.inl h1)⟩

/-! ## Both levels -/

/-- The fields of a policy for LL or for D1. -/
def Policy.level (p : Policy) (LL : Bool) : MissHistory := if LL then p.ll else p.d1

/-- `store_misses_history(&policies[i], last_value, LL)`. -/
def storeAt (w : ℤ) (i : Fin 4) (LL lastValue : Bool) : EngineM PUnit :=
  if LL then storeLL w i lastValue else storeD1 w i lastValue

/-- One call after the other, each with its level and outcome. -/
def storeCalls (w : ℤ) (i : Fin 4) (calls : List (Bool × Bool)) : EngineM PUnit :=
  forM calls fun call => storeAt w i call.1 call.2

/-- The outcomes for one level. -/
def levelOutcomes (LL : Bool) (calls : List (Bool × Bool)) : List Bool :=
  (calls.filter fun call => call.1 = LL).map Prod.snd

/-- A call changes the fields of its level. -/
theorem storeAt_eq {w x : ℤ} {LL v : Bool} {h' : MissHistory}
    (hok : storeMissesHistory w v ((e.policies i).level LL) = .ok (x, h')) :
    ∃ e', storeAt w i LL v e = .ok (⟨⟩, e') ∧ (e'.policies i).level LL = h'
      ∧ (e'.policies i).level (!LL) = (e.policies i).level (!LL) := by
  cases LL <;>
  simp_all [storeAt, storeD1, storeLL, level, Engine.setPolicy]

/-- **The history slides, but for a window of one.**  After any calls for a policy as
`cachesim_initcaches` leaves it, the counter of each level is below `window_counter`, and the level
tells of its outcomes unless the window is one and there was a miss.  The next call returns, and
leaves the other level alone. -/
theorem miss_history_iff (opts : Options) (hw : 1 ≤ opts.windowCounter)
    (he : e.policies i = Policy.init opts i) (calls : List (Bool × Bool)) :
    ∃ e', storeCalls opts.windowCounter i calls e = .ok (⟨⟩, e')
      ∧ (∀ LL, ((e'.policies i).level LL).bitResultCounter < opts.windowCounter
        ∧ (Tells opts.windowCounter.toNat ((e.policies i).level LL).misses (levelOutcomes LL calls)
            ((e'.policies i).level LL)
          ↔ opts.windowCounter ≠ 1 ∨ true ∉ levelOutcomes LL calls))
      ∧ ∀ LL v, ∃ e'', storeAt opts.windowCounter i LL v e' = .ok (⟨⟩, e'')
        ∧ (e''.policies i).level (!LL) = (e'.policies i).level (!LL) := by
  obtain ⟨w, hw'⟩ := Int.eq_ofNat_of_zero_le (show 0 ≤ opts.windowCounter by omega)
  obtain ⟨e', hrun, hfed⟩ : ∃ e', storeCalls opts.windowCounter i calls e = .ok (⟨⟩, e')
      ∧ ∀ LL, Fed w ((e.policies i).level LL).misses (levelOutcomes LL calls)
        ((e'.policies i).level LL) := by
    induction calls using List.reverseRecOn with
    | nil =>
      refine ⟨e, rfl, fun LL => ?_⟩
      rw [he]
      cases LL <;> exact fed_init hw' (by omega) _
    | append_singleton calls call ih =>
      obtain ⟨LL, v⟩ := call
      obtain ⟨e₁, hrun, hfed⟩ := ih
      obtain ⟨x, h', hok, hfed'⟩ := (hfed LL).store (by omega) v
      obtain ⟨e₂, hcall, hlevel, hother⟩ := storeAt_eq (hw' ▸ hok)
      refine ⟨e₂, ?_, fun LL' => ?_⟩
      · rw [storeCalls, forM_append]
        exact (Hoare.bind_of_ok hrun).trans (by simp [hcall])
      · obtain rfl | rfl : LL' = LL ∨ LL' = !LL := by cases LL <;> cases LL' <;> simp
        · simpa [levelOutcomes, filter_append, hlevel] using hfed'
        · rw [hother]
          simpa [levelOutcomes, filter_append] using hfed (!LL)
  refine ⟨e', hrun, fun LL => ?_, fun LL v => ?_⟩
  · rw [hw']
    exact_mod_cast (hfed LL).tells_iff
  · obtain ⟨x, h', hok, -⟩ := (hfed LL).store (by omega) v
    obtain ⟨e'', hcall, -, hother⟩ := storeAt_eq (hw' ▸ hok)
    exact ⟨e'', hcall, hother⟩

/-- The history slides over a window of two. -/
theorem miss_history_two : ∃ e e', e.policies 0 = Policy.init twoRefWindow 0
    ∧ storeCalls 2 0 [(true, true), (false, true), (true, false)] e = .ok (⟨⟩, e')
    ∧ Tells 2 0 [true, false] ((e'.policies 0).level true) := by
  obtain ⟨c, -⟩ := exists_smallCache
  let e : Engine := ⟨fun _ => c, init twoRefWindow, 0, 0, 0, 0, 0, lcgStream⟩
  obtain ⟨e', hrun, htells, -⟩ := miss_history_iff twoRefWindow (e := e) (i := 0) (by decide) rfl
    [(true, true), (false, true), (true, false)]
  exact ⟨e, e', rfl, hrun, (htells true).2.mpr (.inl (by decide))⟩

/-- With a window of one, a miss in D1 is not counted. -/
theorem miss_history_one : ∃ (opts : Options) (e e' : Engine), opts.windowCounter = 1
    ∧ e.policies 0 = Policy.init opts 0 ∧ storeAt 1 0 false true e = .ok (⟨⟩, e')
    ∧ ((e'.policies 0).level false).historicMisses = 0
    ∧ ((e'.policies 0).level false).misses = ((e.policies 0).level false).misses := by
  obtain ⟨c, -⟩ := exists_smallCache
  let opts : Options := { twoRefWindow with windowCounter := 1, windowCounter_lt := by decide }
  exact ⟨opts, ⟨fun _ => c, init opts, 0, 0, 0, 0, 0, lcgStream⟩, _, rfl, rfl, rfl, rfl, rfl⟩

end Valgrind.Cachegrind
