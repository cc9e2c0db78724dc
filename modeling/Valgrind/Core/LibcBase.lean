import Valgrind.Core.LibcAssert

/-!
# Core/LibcBase — `coregrind/m_libcbase.c`: logarithms, random numbers, strings

`VG_(log2)` is exact or `-1`.  `VG_(random)(NULL)` steps a linear congruential seed that the whole
core shares, so what one caller sees is some subsequence of it: a consumer is handed a *stream* of
draws (`RandomStream`), of which `lcgStream` is the undisturbed one.  `VG_(strrchr)` never looks
at the first character.
-/

namespace Valgrind

open List Nat

/-! ## `VG_(log2)` -/

/-- `VG_(log2)`: the first `i < 32` with `1U << i == x`, else `-1`. -/
def vgLog2 (x : ℕ) : ℤ :=
  match (List.range 32).find? fun i => 2 ^ i == x with
  | some i => i
  | none => -1

/-- **`VG_(log2)` answers with an exponent below 32, or not at all.** -/
theorem vgLog2_eq {x : ℕ} (h : vgLog2 x ≠ -1) : ∃ i : ℕ, i < 32 ∧ vgLog2 x = i ∧ 2 ^ i = x := by
  rw [vgLog2] at h ⊢
  cases hf : (range 32).find? fun i => 2 ^ i == x with
  | none => exact absurd (by rw [hf]) h
  | some i =>
    refine ⟨i, mem_range.mp (mem_of_find?_eq_some hf), rfl, ?_⟩
    simpa using find?_some hf

/-- A power of two below `2 ^ 32` has its exponent as logarithm. -/
theorem vgLog2_two_pow {i : ℕ} (hi : i < 32) : vgLog2 (2 ^ i) = i := by
  have hne : vgLog2 (2 ^ i) ≠ -1 := by
    rw [vgLog2]
    cases hf : (range 32).find? fun j => 2 ^ j == 2 ^ i with
    | none =>
      have := find?_eq_none.mp hf i (mem_range.mpr hi)
      simp at this
    | some j => simp only [ne_eq]; omega
  obtain ⟨j, _, hj, hpow⟩ := vgLog2_eq hne
  rw [hj, Nat.pow_right_injective (le_refl 2) hpow]

/-! ## `VG_(random)` -/

/-- The draws a caller of `VG_(random)(NULL)` gets, in order. -/
abbrev RandomStream := ℕ → ℕ

/-- `VG_(random)(NULL)`: the next draw and the rest of the stream. -/
def vgRandom (r : RandomStream) : ℕ × RandomStream := (r 0, fun n => r (n + 1))

/-- One update of the seed of `VG_(random)`. -/
def randomSeed (seed : ℕ) : ℕ := (1103515245 * seed + 12345) % 2 ^ 32

/-- The stream of the private seed when nobody else draws: it starts at zero. -/
def lcgStream : RandomStream := fun n => randomSeed^[n + 1] 0

/-! ## Strings -/

/-- A character of a C string. -/
abbrev HChar := UInt8

/-- `VG_(strlen)` on the memory from `str` on. -/
def vgStrlen : List HChar → Except Abort ℕ
  | [] => .error .wildAccess
  | c :: str => if c = 0 then return 0 else return (← vgStrlen str) + 1

/-- The loop of `VG_(strrchr)`, `while (--n > 0)`. -/
def strrchrLoop (s : List HChar) (c : HChar) : ℕ → Option ℕ
  | 0 | 1 => none
  | n + 2 => if s[n + 1]? = some c then some (n + 1) else strrchrLoop s c (n + 1)

/-- `VG_(strrchr)`: an offset from `s`, or NULL.  The length becomes an `Int`. -/
def vgStrrchr (s : List HChar) (c : HChar) : Except Abort (Option ℕ) := do
  let n := toInt (← vgStrlen s)
  if n = -2 ^ 31 then throw .arithmetic else return strrchrLoop s c n.toNat

theorem vgStrlen_append {s : List HChar} (h : 0 ∉ s) (rest : List HChar) :
    vgStrlen (s ++ 0 :: rest) = .ok s.length := by
  induction s with
  | nil => rfl
  | cons c s ih =>
    obtain ⟨hc, hs⟩ := ne_and_not_mem_of_not_mem_cons h
    rw [cons_append, vgStrlen, if_neg hc.symm, ih hs]
    rfl

/-- `r` is the last position of `c` in `s`, if it has one. -/
def IsLastPos (s : List HChar) (c : HChar) : Option ℕ → Prop
  | none => c ∉ s
  | some i => s[i]? = some c ∧ ∀ j, i < j → s[j]? ≠ some c

/-- The loop finds the last position unless that is 0 or not below `n`. -/
theorem strrchrLoop_isLastPos_iff {s : List HChar} (rest : List HChar) (c : HChar) {n : ℕ}
    (hn : n ≤ s.length) : IsLastPos s c (strrchrLoop (s ++ rest) c n)
      ↔ (c ∈ s → (∃ i, 0 < i ∧ s[i]? = some c) ∧ ∀ i, s[i]? = some c → i < n) := by
  induction n using strrchrLoop.induct (s ++ rest) c with
  | case1 | case2 =>
    refine ⟨fun h hc => absurd hc h, fun h hc => ?_⟩
    obtain ⟨⟨i, h0, hi⟩, hlt⟩ := h hc
    have := hlt i hi
    omega
  | case3 n h =>
    rw [strrchrLoop, if_pos h]
    rw [getElem?_append_left hn] at h
    refine ⟨fun ⟨_, hlast⟩ _ => ⟨⟨n + 1, n.succ_pos, h⟩, fun i hi => ?_⟩,
      fun hc => ⟨h, fun j hj hjc => ?_⟩⟩
    · exact lt_succ_of_le (not_lt.mp fun hlt => hlast i hlt hi)
    · exact absurd ((hc (mem_of_getElem? h)).2 j hjc) (not_lt.mpr hj)
  | case4 n h ih =>
    rw [strrchrLoop, if_neg h, ih (le_of_succ_le hn)]
    rw [getElem?_append_left hn] at h
    have hlt (i : ℕ) (hi : s[i]? = some c) : i < n + 1 ↔ i < n + 2 := by
      have : i ≠ n + 1 := fun he => h (he ▸ hi)
      omega
    exact imp_congr_right fun _ => and_congr_right fun _ => forall₂_congr hlt

/-- **`VG_(strrchr)` finds the last position unless that is 0**, or not below the length as an
`Int`. -/
theorem vgStrrchr_last_iff {s : List HChar} (hs : 0 ∉ s) (rest : List HChar) (c : HChar) :
    (∃ r, vgStrrchr (s ++ 0 :: rest) c = .ok r ∧ IsLastPos s c r)
      ↔ toInt s.length ≠ -2 ^ 31 ∧ (c ∈ s → (∃ i, 0 < i ∧ s[i]? = some c)
        ∧ ∀ i : ℕ, s[i]? = some c → i < toInt s.length) := by
  have hle : (toInt s.length).toNat ≤ s.length := by
    rw [toInt, Int.bmod_def]
    split <;> omega
  rw [vgStrrchr, vgStrlen_append hs, ok_bind]
  by_cases hn : toInt s.length = -2 ^ 31
  · rw [if_pos hn]
    exact iff_of_false nofun fun h => h.1 hn
  · simp only [if_neg hn, pure_eq_ok, Except.ok.injEq, exists_eq_left', ← Int.lt_toNat,
      strrchrLoop_isLastPos_iff _ _ hle]
    exact (and_iff_right hn).symm

theorem vgStrrchr_slash_name : ∃ r, vgStrrchr [110, 47, 109, 0] 47 = .ok r
    ∧ IsLastPos [110, 47, 109] 47 r :=
  (vgStrrchr_last_iff (s := [110, 47, 109]) (by decide) [] 47).mpr
    ⟨by decide, fun _ => ⟨⟨1, by decide⟩, fun i hi => by
      have : i < 3 := (List.getElem?_eq_some_iff.mp hi).1
      exact lt_of_lt_of_eq (Int.ofNat_lt.mpr this) (by decide)⟩⟩

/-- The path `"/"`: its one slash is not found. -/
theorem vgStrrchr_root : vgStrrchr [47, 0] 47 = .ok none ∧ ¬ IsLastPos [47] 47 none :=
  ⟨rfl, fun h => h (mem_singleton.mpr rfl)⟩
end Valgrind
