import Mathlib.Tactic

/-!
# Foundations/Interning — handles for values, one for each

A table hands out **handles** for values and may take them back.  `Naming` says which handles are
live and what each denotes.  It is canonical if no value has two handles; then handles may be
compared in place of values.  A memo that holds results as handles stays right as long as every
live handle keeps its meaning (`Remembers.mono`).
-/

namespace Interning

open Function List

variable {ι ν α : Type}

/-- What each live handle denotes. -/
abbrev Naming (ι ν : Type) := ι → Option ν

/-- No value has two handles. -/
def Canonical (m : Naming ι ν) : Prop := ∀ ⦃i j v⦄, m i = some v → m j = some v → i = j

/-- Every live handle keeps its meaning. -/
def Keeps (m m' : Naming ι ν) : Prop := ∀ ⦃i v⦄, m i = some v → m' i = some v

/-- **Handle `i` is given for `v`**: the one `v` has already, or a dead one if it has none. -/
inductive Interned [DecidableEq ι] (m : Naming ι ν) (v : ν) : ι → Naming ι ν → Prop
  | old {i : ι} (h : m i = some v) : Interned m v i m
  | new {i : ι} (h : m i = none) (hv : ∀ j, m j ≠ some v) :
    Interned m v i (update m i (some v))

section

variable [DecidableEq ι] {m m' : Naming ι ν} {v : ν} {i : ι}

theorem Interned.denotes (h : Interned m v i m') : m' i = some v := by
  cases h with
  | old h => exact h
  | new h hv => exact update_self ..

theorem Interned.keeps (h : Interned m v i m') : Keeps m m' := by
  cases h with
  | old h => exact fun _ _ hj => hj
  | new h hv =>
    intro j w hj
    have hne : j ≠ i := by
      rintro rfl
      exact nomatch h.symm.trans hj
    rwa [update_of_ne hne]

/-- No other handle comes to life. -/
theorem Interned.eq_or_denotes (h : Interned m v i m') {j : ι} {w : ν} (hj : m' j = some w) :
    j = i ∨ m j = some w := by
  cases h with
  | old h => exact .inr hj
  | new h hv =>
    rw [update_apply] at hj
    split_ifs at hj with hji
    · exact .inl hji
    · exact .inr hj

end

/-- A memo's entries are right: each holds the live handle of what is wanted. -/
def Remembers (m : Naming ι ν) (want : Naming ι ν → α → Option ν) (res : α → ι) (memo : List α) :
    Prop := ∀ e ∈ memo, ∃ v, want m e = some v ∧ m (res e) = some v

/-- What is wanted depends on live handles only. -/
def Stable (want : Naming ι ν → α → Option ν) : Prop :=
  ∀ ⦃m m'⦄, Keeps m m' → ∀ ⦃e v⦄, want m e = some v → want m' e = some v

/-- **A memo stays right while live handles keep their meaning.** -/
theorem Remembers.mono {m m' : Naming ι ν} {want : Naming ι ν → α → Option ν} {res : α → ι}
    {memo : List α} (h : Remembers m want res memo) (hwant : Stable want) (hkeeps : Keeps m m') :
    Remembers m' want res memo := by
  intro e he
  obtain ⟨v, hv, hres⟩ := h e he
  exact ⟨v, hwant hkeeps hv, hkeeps hres⟩

/-! ## Tables of slots -/

section Slots

variable {σ β : Type} (f : Option σ → β) {l : List σ} {n : ℕ}

/-- What is read of the slots, after one is written… -/
theorem read_set (h : n < l.length) (s : σ) :
    (fun i => f (l.set n s)[i]?) = update (fun i => f l[i]?) n (f (some s)) := by
  funext i
  rcases eq_or_ne i n with rfl | hne
  · rw [getElem?_set_self h, update_self]
  · rw [getElem?_set_ne hne.symm, update_of_ne hne]

/-- …and after one is added. -/
theorem read_append (s : σ) :
    (fun i => f (l ++ [s])[i]?) = update (fun i => f l[i]?) l.length (f (some s)) := by
  funext i
  rcases lt_trichotomy i l.length with h | rfl | h
  · rw [getElem?_append_left h, update_of_ne h.ne]
  · rw [getElem?_concat_length, update_self]
  · rw [getElem?_eq_none (by simpa using h), update_of_ne h.ne', getElem?_eq_none h.le]

end Slots

end Interning
