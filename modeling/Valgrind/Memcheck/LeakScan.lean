import Valgrind.Memcheck.LeakCheck

/-!
# Memcheck/LeakScan — `lc_scan_memory` visits every readable word once

The scan skips what the shadow memory has no entry for, and pages the client may not read.  What it
visits are all the valid aligned words of the area that can be read, in order of address:
`lcScanMemory_eq`.
-/

namespace Valgrind.Memcheck

open Nat List

/-! ## Rounding -/

theorem roundDn_mod (p a : ℕ) : roundDn p a % a = 0 := mul_mod_left _ _

theorem roundDn_le (p a : ℕ) : roundDn p a ≤ p := div_mul_le_self p a

theorem lt_roundDn_add (p : ℕ) {a : ℕ} (ha : 0 < a) : p < roundDn p a + a := by
  have := div_add_mod' p a
  have := mod_lt p ha
  rw [roundDn]
  omega

theorem roundUp_eq {p a : ℕ} (hp : p + a ≤ 2 ^ 64) : roundUp p a = roundDn (p + a - 1) a := by
  rw [roundUp, mod_eq_of_lt (by omega)]

theorem roundUp_mod (p a : ℕ) : roundUp p a % a = 0 := roundDn_mod _ _

theorem le_roundUp {p a : ℕ} (hp : p + a ≤ 2 ^ 64) (ha : 0 < a) : p ≤ roundUp p a := by
  have := lt_roundDn_add (p + a - 1) ha
  rw [roundUp_eq hp]
  omega

theorem roundUp_lt {p a : ℕ} (hp : p + a ≤ 2 ^ 64) (ha : 0 < a) : roundUp p a < p + a := by
  have := roundDn_le (p + a - 1) a
  rw [roundUp_eq hp]
  omega

/-- Up to the next boundary above `p`, addresses are in the same unit as `p`. -/
theorem div_eq_of_lt_roundUp {p a x : ℕ} (hp : p + 1 + a ≤ 2 ^ 64) (ha : 0 < a) (hpx : p ≤ x)
    (hx : x < roundUp (p + 1) a) : x / a = p / a := by
  have hup : roundUp (p + 1) a = p / a * a + a := by
    rw [roundUp_eq hp, roundDn, show p + 1 + a - 1 = p + a by omega, add_div_right p ha,
      add_mul, one_mul]
  rw [hup] at hx
  refine le_antisymm ?_ (Nat.div_le_div_right hpx)
  rw [← Nat.lt_succ_iff, Nat.div_lt_iff_lt_mul ha, Nat.succ_mul]
  exact hx

namespace Client

variable (c : Client)

/-- The word at an aligned address, if it is valid and readable. -/
def word (a : ℕ) : Option ℕ :=
  if c.amIsValidForClient a 8 ∧ c.isValidAlignedWord a then c.load a else none

/-- The words between two aligned addresses. -/
def words (p e : ℕ) : List ℕ := (List.range' p ((e - p) / 8) 8).filterMap c.word

variable {c}

theorem mem_words {p e v : ℕ} (hp : p % 8 = 0) (he : e % 8 = 0) :
    v ∈ c.words p e ↔ ∃ a, p ≤ a ∧ a < e ∧ a % 8 = 0 ∧ c.word a = some v := by
  rw [words, mem_filterMap]
  constructor
  · rintro ⟨a, ha, hv⟩
    obtain ⟨i, hi, rfl⟩ := mem_range'.mp ha
    exact ⟨_, by omega, by omega, by omega, hv⟩
  · rintro ⟨a, hpa, hae, ha, hv⟩
    exact ⟨a, mem_range'.mpr ⟨(a - p) / 8, by omega, by omega⟩, hv⟩

theorem words_nil {p e : ℕ} (h : e ≤ p) : c.words p e = [] := by
  rw [words, Nat.sub_eq_zero_of_le h]
  rfl

theorem words_cons {p e : ℕ} (hp : p % 8 = 0) (he : e % 8 = 0) (h : p < e) :
    c.words p e = (c.word p).toList ++ c.words (p + 8) e := by
  have hlen : (e - p) / 8 = (e - (p + 8)) / 8 + 1 := by omega
  rw [words, hlen, range'_succ, filterMap_cons]
  cases c.word p <;> rfl

/-- What has no words may be left out. -/
theorem words_skip {p q e : ℕ} (hp : p % 8 = 0) (hq : q % 8 = 0) (he : e % 8 = 0) (hpq : p ≤ q)
    (hnone : ∀ a, p ≤ a → a < q → a % 8 = 0 → c.word a = none) : c.words p e = c.words q e := by
  -- one word after the other, from `p` on
  induction hd : q - p using Nat.strong_induction_on generalizing p with
  | _ d ih =>
    rcases eq_or_lt_of_le hpq with rfl | hlt
    · rfl
    rcases lt_or_ge p e with hpe | hpe
    · rw [words_cons hp he hpe, hnone p le_rfl hlt hp]
      exact ih (q - (p + 8)) (by omega) (by omega) (by omega)
        (fun a ha => hnone a (by omega)) rfl
    · rw [words_nil hpe, words_nil (by omega)]

theorem word_of_secondary {a b : ℕ} (hab : b / smSize = a / smSize)
    (ha : ¬ c.isWithinValidSecondary a) : c.word b = none := by
  rw [word, if_neg]
  rintro ⟨-, hv⟩
  exact ha (c.secondary_eq b a hab ▸ c.valid_secondary b hv)

theorem word_of_page {a b : ℕ} (ha8 : a % 8 = 0) (hb8 : b % 8 = 0)
    (hab : b / pageSize = a / pageSize) (ha : ¬ c.amIsValidForClient a 8) : c.word b = none := by
  rw [word, if_neg]
  rintro ⟨hv, -⟩
  exact ha (c.readable_eq b a hb8 ha8 hab ▸ hv)

/-- A unit of pages that has no words is left out. -/
theorem words_roundUp {p e unit : ℕ} (hp : p % 8 = 0) (he : e % 8 = 0) (hunit : pageSize ∣ unit)
    (hpos : 0 < unit) (hw : p + 1 + unit ≤ 2 ^ 64)
    (hnone : ∀ a, a % 8 = 0 → a / unit = p / unit → c.word a = none) :
    roundUp (p + 1) unit % 8 = 0 ∧ p < roundUp (p + 1) unit
      ∧ roundUp (p + 1) unit % pageSize = 0 ∧ c.words (roundUp (p + 1) unit) e = c.words p e := by
  have hle : p < roundUp (p + 1) unit := le_roundUp hw hpos
  have hpage : roundUp (p + 1) unit % pageSize = 0 :=
    mod_eq_zero_of_dvd (hunit.trans (dvd_of_mod_eq_zero (roundUp_mod (p + 1) unit)))
  have h8 : roundUp (p + 1) unit % 8 = 0 := by
    simp only [pageSize] at hpage
    omega
  exact ⟨h8, hle, hpage, (words_skip hp h8 he hle.le fun a hpa hax ha8 =>
    hnone a ha8 (div_eq_of_lt_roundUp hw hpos hpa hax)).symm⟩

/-! ## The scan -/

/-- **The scan visits the words**, if the page it begins in is readable or begins there. -/
theorem scanLoop_eq {σ : Type} (visit : ℕ → σ → Except Abort σ) {stop fuel ptr : ℕ}
    (hstop : stop + smSize ≤ 2 ^ 64) (hstop8 : stop % 8 = 0) (hptr : ptr % 8 = 0)
    (hpage : ptr % pageSize = 0 ∨ c.amIsValidForClient ptr 8) (hfuel : (stop - ptr) / 8 ≤ fuel)
    (st : σ) :
    c.scanLoop visit stop fuel ptr st =
      (c.words ptr stop).foldlM (fun st v => visit v st) st := by
  simp only [smSize] at hstop
  induction fuel generalizing ptr st with
  | zero =>
    rw [scanLoop, if_neg (by omega), words_nil (by omega)]
    rfl
  | succ fuel ih =>
    rw [scanLoop]
    by_cases hlt : ptr < stop
    swap
    · rw [if_neg hlt, words_nil (by omega)]
      rfl
    rw [if_pos hlt, scanStep]
    by_cases hsm : ptr % smSize = 0 ∧ ¬ c.isWithinValidSecondary ptr
    · -- the scan goes on at the next entry of the shadow memory
      obtain ⟨h8, hlt', hpage', hwords⟩ := words_roundUp hptr hstop8 (by decide) (by decide)
        (by simp only [smSize]; omega) fun a _ ha => word_of_secondary ha hsm.2
      rw [if_pos hsm]
      dsimp only
      rw [ih h8 (.inl hpage') (by omega), hwords]
    rw [if_neg hsm]
    by_cases hpg : ptr % pageSize = 0 ∧ ¬ c.amIsValidForClient ptr 8
    · have hz := hpg.1
      simp only [pageSize] at hz
      have hnext : (ptr + pageSize) % 2 ^ 64 = ptr + 4096 := by simp only [pageSize]; omega
      rw [if_pos hpg]
      dsimp only
      rw [hnext, ih (by omega) (.inl (by simp only [pageSize]; omega)) (by omega)]
      refine congrArg (fun l => foldlM _ st l)
        (words_skip hptr (by omega) hstop8 (by omega) ?_).symm
      intro a hpa hax ha8
      refine word_of_page hptr ha8 ?_ hpg.2
      simp only [pageSize]
      omega
    rw [if_neg hpg]
    have hread : c.amIsValidForClient ptr 8 := by
      rcases hpage with hz | hr
      · by_contra hn
        exact hpg ⟨hz, hn⟩
      · exact hr
    have hword : (if c.isValidAlignedWord ptr then c.load ptr else none) = c.word ptr := by
      simp [word, hread]
    have hnext : (ptr + 8) % 2 ^ 64 = ptr + 8 := by omega
    have hpage' : (ptr + 8) % pageSize = 0 ∨ c.amIsValidForClient (ptr + 8) 8 := by
      by_cases hz : (ptr + 8) % pageSize = 0
      · exact .inl hz
      · refine .inr ?_
        rw [c.readable_eq (ptr + 8) ptr (by omega) hptr]
        · exact hread
        · simp only [pageSize] at hz ⊢
          omega
    have ih' := fun st => ih (by omega) hpage' (by omega) st
    rw [hword, hnext, words_cons hptr hstop8 hlt]
    cases c.word ptr with
    | none => exact ih' st
    | some v =>
      simp only [Option.toList_some, cons_append, nil_append, foldlM_cons, ih']

/-- Where the scan begins, nothing is lost. -/
theorem scanStart_spec (start : ℕ) {e : ℕ} (hstart : start + 2 * smSize ≤ 2 ^ 64) (he : e % 8 = 0) :
    c.scanStart start % 8 = 0 ∧
      (c.scanStart start % pageSize = 0 ∨ c.amIsValidForClient (c.scanStart start) 8) ∧
      c.words (c.scanStart start) e = c.words (roundUp start 8) e := by
  simp only [smSize] at hstart
  have hup := roundUp_mod start 8
  have huplt := roundUp_lt (p := start) (a := 8) (by omega) (by decide)
  simp only [scanStart]
  split_ifs with hsm hpg
  · exact ⟨hup, .inr hpg, rfl⟩
  · obtain ⟨h8, -, hpage, hwords⟩ := words_roundUp hup he (dvd_refl pageSize) (by decide)
      (by simp only [pageSize]; omega) fun a ha8 ha => word_of_page hup ha8 ha hpg
    exact ⟨h8, .inl hpage, hwords⟩
  · obtain ⟨h8, -, hpage, hwords⟩ := words_roundUp hup he (show pageSize ∣ smSize by decide)
      (by decide)
      (by simp only [smSize]; omega) fun a _ ha => word_of_secondary ha hsm
    exact ⟨h8, .inl hpage, hwords⟩

/-- **Scanning an area** visits its words. -/
theorem lcScanMemory_eq {σ : Type} (visit : ℕ → σ → Except Abort σ) {start len : ℕ}
    (hend : start + len + 2 * smSize ≤ 2 ^ 64) (st : σ) :
    ∃ l : List ℕ, c.lcScanMemory visit start len st = l.foldlM (fun st v => visit v st) st ∧
      ∀ v, v ∈ l ↔ ∃ a, start ≤ a ∧ a + 8 ≤ start + len ∧ a % 8 = 0 ∧ c.word a = some v := by
  have hdn := roundDn_mod (start + len) 8
  have hdnle := roundDn_le (start + len) 8
  have hdnlt := lt_roundDn_add (start + len) (show 0 < 8 by decide)
  obtain ⟨h8, hpage, hwords⟩ := scanStart_spec (c := c) start (by omega) hdn
  simp only [smSize] at hend
  have hup := roundUp_mod start 8
  have huple := le_roundUp (p := start) (a := 8) (by omega) (by decide)
  have huplt := roundUp_lt (p := start) (a := 8) (by omega) (by decide)
  refine ⟨c.words (roundUp start 8) (roundDn (start + len) 8), ?_, fun v => ?_⟩
  · rw [lcScanMemory, mod_eq_of_lt (show start + len < 2 ^ 64 by omega)]
    rw [scanLoop_eq visit (by simp only [smSize]; omega) hdn h8 hpage (by omega), hwords]
  · rw [mem_words hup hdn]
    constructor
    · rintro ⟨a, hpa, hae, ha, hv⟩
      exact ⟨a, by omega, by omega, ha, hv⟩
    · rintro ⟨a, hpa, hae, ha, hv⟩
      exact ⟨a, by omega, by omega, ha, hv⟩

end Client

end Valgrind.Memcheck
