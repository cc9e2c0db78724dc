import Valgrind.Core.LibcAssert
import Valgrind.Foundations.Refinement

/-!
# Core/Transtab — `coregrind/m_transtab.c`: when a sector of the translation cache is full

Translations go into the youngest sector until their code no longer fits or its table is full; then
its loading is reported and the next sector emptied.  A discard frees a table entry but no code
space.  Only what decides on fullness is kept of a sector, and one never used is an empty one.
-/

namespace Valgrind

open Refinement

namespace Transtab

/-- `N_HTTES_PER_SECTOR`. -/
def nHttesPerSector : ℕ := 65521

/-- `N_TTES_PER_SECTOR`, 65% of it. -/
def nTtesPerSector : ℕ := nHttesPerSector * 65 / 100

theorem perSector_eq : nHttesPerSector = 65521 ∧ nTtesPerSector = 42588 := ⟨rfl, rfl⟩

/-- A sector, with the bounds that `VG_(add_to_transtab)` asserts of it. -/
structure Sector (tcSectorSzQ : ℕ) where
  /-- `tc_next - tc`: the code space used, in 8-byte units. -/
  tcNext : ℕ
  ttNInuse : ℕ
  tcNext_le : tcNext ≤ tcSectorSzQ
  ttNInuse_le : ttNInuse ≤ nTtesPerSector

end Transtab

open Transtab

structure Transtab where
  tcSectorSzQ : ℕ
  nSectors : ℕ
  youngestSector : ℕ
  sectors : ℕ → Sector tcSectorSzQ
  /-- The numbers printed: TT loading, TC loading, average entry size. -/
  messages : List (ℕ × ℕ × ℕ)
  size : 2 * nTtesPerSector ≤ tcSectorSzQ ∧ tcSectorSzQ ≤ 100 * nTtesPerSector
  valid : youngestSector < nSectors

namespace Transtab

variable {t : Transtab}

/-- The sector that translations go to. -/
abbrev young (t : Transtab) : Sector t.tcSectorSzQ := t.sectors t.youngestSector

/-- Its free code space. -/
abbrev tcAvailQ (t : Transtab) : ℕ := t.tcSectorSzQ - t.young.tcNext

def setSector (t : Transtab) (y : ℕ) (s : Sector t.tcSectorSzQ) : Transtab :=
  { t with sectors := Function.update t.sectors y s }

/-- `k * a / b` on `Int`s that are not negative. -/
def mulDiv (k a b : ℕ) : Except Abort ℕ :=
  if k * a < 2 ^ 31 ∧ b ≠ 0 then .ok (k * a / b) else .error .arithmetic

/-- Declare the youngest sector full, and empty the next one. -/
def nextSector (t : Transtab) : Except Abort Transtab := do
  let tt ← mulDiv 100 t.young.ttNInuse nHttesPerSector
  let tc ← mulDiv 100 (t.tcSectorSzQ - t.tcAvailQ) t.tcSectorSzQ
  let avg ← mulDiv 8 (t.tcSectorSzQ - t.tcAvailQ) t.young.ttNInuse
  let y := if t.youngestSector + 1 ≥ t.nSectors then 0 else t.youngestSector + 1
  return { t with
    youngestSector := y
    sectors := Function.update t.sectors y ⟨0, 0, zero_le, zero_le⟩
    messages := (tt, tc, avg) :: t.messages
    valid := by have := t.valid; grind }

/-- Copy a translation into the youngest sector. -/
def place (t : Transtab) (reqdQ : ℕ) : Except Abort Transtab :=
  if h : reqdQ ≤ t.tcAvailQ ∧ t.young.ttNInuse < nTtesPerSector then
    .ok (t.setSector t.youngestSector ⟨t.young.tcNext + reqdQ, t.young.ttNInuse + 1,
      Nat.add_le_of_le_sub' t.young.tcNext_le h.1, h.2⟩)
  else .error .assertion

/-- `VG_(add_to_transtab)`. -/
def addToTranstab (t : Transtab) (codeLen : ℕ) : Except Abort Transtab := do
  vgAssert (codeLen > 0 ∧ codeLen < 60000)
  let reqdQ := (codeLen + 7) / 8
  if t.tcAvailQ < reqdQ ∨ t.young.ttNInuse ≥ nTtesPerSector then (← t.nextSector).place reqdQ
  else t.place reqdQ

/-- `delete_tte` of a translation in use. -/
def deleteTte (t : Transtab) (secNo : ℕ) : Except Abort Transtab := do
  let s := t.sectors secNo
  vgAssert (s.ttNInuse > 0)
  return t.setSector secNo
    ⟨s.tcNext, s.ttNInuse - 1, s.tcNext_le, (Nat.sub_le ..).trans s.ttNInuse_le⟩

inductive Op where
  | add (codeLen : ℕ)
  | discard (secNo : ℕ)

def step (t : Transtab) : Op → Except Abort (Unit × Transtab)
  | .add codeLen => return ((), ← t.addToTranstab codeLen)
  | .discard secNo => return ((), ← t.deleteTte secNo)

/-- What the callers see to; and a sector whose code space runs out has a translation in use. -/
def Admitted (t : Transtab) : Op → Prop
  | .add n => (0 < n ∧ n < 60000) ∧ (t.tcAvailQ < (n + 7) / 8 → t.young.ttNInuse ≠ 0)
  | .discard secNo => 0 < (t.sectors secNo).ttNInuse

/-- The loadings reported are percentages. -/
def Reported (t : Transtab) : Prop := ∀ m ∈ t.messages, m.1 ≤ 100 ∧ m.2.1 ≤ 100

theorem place_eq {r : ℕ} (h : r ≤ t.tcAvailQ ∧ t.young.ttNInuse < nTtesPerSector) :
    ∃ t', t.place r = .ok t' ∧ t'.messages = t.messages := ⟨_, dif_pos h, rfl⟩

theorem nextSector_spec (hlive : t.young.ttNInuse ≠ 0) (hrep : t.Reported) :
    ∃ t', t.nextSector = .ok t' ∧ t'.Reported ∧ t'.tcAvailQ = t'.tcSectorSzQ
      ∧ t'.young.ttNInuse = 0 := by
  obtain ⟨hsz, hsz'⟩ := t.size
  have hn := t.young.ttNInuse_le
  obtain ⟨hH, hN⟩ := perSector_eq
  rw [nextSector, mulDiv, if_pos (by omega), ok_bind, mulDiv, if_pos (by omega), ok_bind, mulDiv,
    if_pos (by omega)]
  refine ⟨_, rfl, List.forall_mem_cons.mpr ⟨⟨?_, ?_⟩, hrep⟩, ?_, ?_⟩
  · exact Nat.div_le_of_le_mul (by omega)
  · exact Nat.div_le_of_le_mul (by omega)
  · simp [tcAvailQ, young]
  · simp [young]

/-- An operation that is admitted returns. -/
theorem step_spec (op : Op) (hrep : t.Reported) (hop : t.Admitted op) :
    ∃ r t', t.step op = .ok (r, t') ∧ t'.Reported := by
  cases op with
  | discard secNo =>
    have hdel : t.deleteTte secNo = _ := vgAssert_bind (p := (t.sectors secNo).ttNInuse > 0) hop _
    rw [step, hdel]
    exact ⟨(), _, rfl, hrep⟩
  | add n =>
    obtain ⟨hlen, hlive⟩ := hop
    rw [step, addToTranstab, vgAssert_bind hlen]
    by_cases hfull : t.tcAvailQ < (n + 7) / 8 ∨ t.young.ttNInuse ≥ nTtesPerSector
    · have hN := perSector_eq.2
      obtain ⟨t₁, hnext, hrep₁, hav, hn⟩ := nextSector_spec (t := t) (by omega) hrep
      have hsz := t₁.size.1
      obtain ⟨t₂, hplace, hmsg⟩ := place_eq (t := t₁) (r := (n + 7) / 8) (by omega)
      dsimp only
      rw [if_pos hfull, hnext, ok_bind, hplace]
      exact ⟨(), t₂, rfl, by rwa [Reported, hmsg]⟩
    · obtain ⟨t₂, hplace, hmsg⟩ := place_eq (t := t) (r := (n + 7) / 8) (by omega)
      dsimp only
      rw [if_neg hfull, hplace]
      exact ⟨(), t₂, rfl, by rwa [Reported, hmsg]⟩

end Transtab

end Valgrind
