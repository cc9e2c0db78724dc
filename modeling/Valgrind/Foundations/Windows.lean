import Valgrind.Foundations.Slice

/-!
# Foundations/Windows — consecutive windows of a list, and what is added up at their ends

A list is cut into windows of `w` elements; the last one may be incomplete.  An accumulator that is
fed at the end of each window holds `complete`, and differs from the sum over all windows by the
figure of the incomplete one (`total_eq`).  The `concat` lemmas follow the list as it grows.
-/

open Slice Nat
open Finset (range sum_congr sum_range_succ mem_range)

namespace Windows

variable {α : Type} {w : ℕ}

/-- The `k`-th window of `w` elements. -/
def window (w : ℕ) (l : List α) (k : ℕ) : List α := slice l (k * w) w

/-- What comes after the last complete window. -/
def current (w : ℕ) (l : List α) : List α := l.drop (l.length / w * w)

/-- The sum over all windows, the last one perhaps incomplete. -/
def total (f : List α → ℕ) (w : ℕ) (l : List α) : ℕ :=
  ∑ k ∈ range (l.length / w + 1), f (window w l k)

/-- …and over the complete ones. -/
def complete (f : List α → ℕ) (w : ℕ) (l : List α) : ℕ :=
  ∑ k ∈ range (l.length / w), f (window w l k)

@[simp] theorem current_nil : current w ([] : List α) = [] := List.drop_nil

@[simp] theorem complete_nil (f : List α → ℕ) : complete f w [] = 0 := by simp [complete]

@[simp] theorem length_current (w : ℕ) (l : List α) : (current w l).length = l.length % w := by
  rw [current, List.length_drop, mod_def, mul_comm]

/-- **The sums differ by the incomplete window.** -/
theorem total_eq (hw : 0 < w) (f : List α → ℕ) (l : List α) :
    total f w l = complete f w l + f (current w l) := by
  have hlast : window w l (l.length / w) = current w l := by
    refine List.take_of_length_le ?_
    have hlen : (current w l).length < w := by
      rw [length_current]
      exact mod_lt _ hw
    exact hlen.le
  rw [total, sum_range_succ, hlast, complete]

/-- Nothing but complete windows, and then less than one. -/
theorem current_append_of_dvd {l l' : List α} (h : w ∣ l.length) (hlt : l'.length < w) :
    current w (l ++ l') = l' := by
  obtain ⟨k, hk⟩ := h
  have hdiv : (l ++ l').length / w = k := by
    rw [List.length_append, hk, mul_add_div (by omega), div_eq_of_lt hlt, add_zero]
  rw [current, hdiv, mul_comm, ← hk, List.drop_left]

section Concat

variable {l : List α} (x : α)

/-- The rest of a list that grows. -/
theorem drop_concat : (l ++ [x]).drop (l.length / w * w) = current w l ++ [x] :=
  List.drop_append_of_le_length (div_mul_le_self _ _)

/-- A complete window does not see the list grow. -/
theorem sum_window_concat (f : List α → ℕ) :
    ∑ k ∈ range (l.length / w), f (window w (l ++ [x]) k) = complete f w l := by
  refine sum_congr rfl fun k hk => ?_
  have hle : k * w + w ≤ l.length := by
    rw [← succ_mul]
    exact (mul_le_mul_right w (mem_range.mp hk)).trans (div_mul_le_self _ _)
  rw [window, window, slice, slice, List.drop_append_of_le_length (by omega),
    List.take_append_of_le_length (by rw [List.length_drop]; omega)]

theorem div_concat_of_lt (h : l.length % w + 1 < w) : (l ++ [x]).length / w = l.length / w := by
  rw [List.length_append, List.length_singleton, succ_div_of_not_dvd]
  intro hdvd
  have := mod_eq_zero_of_dvd hdvd
  rw [add_mod, mod_eq_of_lt (show 1 < w by omega), mod_eq_of_lt h] at this
  omega

theorem div_concat_of_eq (h : l.length % w + 1 = w) : (l ++ [x]).length / w = l.length / w + 1 := by
  have hdvd : w ∣ l.length + 1 := by
    refine ⟨l.length / w + 1, ?_⟩
    rw [mul_succ]
    have := div_add_mod l.length w
    omega
  rw [List.length_append, List.length_singleton, succ_div_of_dvd hdvd]

/-- The window goes on… -/
theorem current_concat_of_lt (h : l.length % w + 1 < w) :
    current w (l ++ [x]) = current w l ++ [x] := by
  rw [current, div_concat_of_lt x h, drop_concat]

theorem complete_concat_of_lt (f : List α → ℕ) (h : l.length % w + 1 < w) :
    complete f w (l ++ [x]) = complete f w l := by
  rw [complete, div_concat_of_lt x h, sum_window_concat]

/-- …or ends. -/
theorem current_concat_of_eq (h : l.length % w + 1 = w) : current w (l ++ [x]) = [] := by
  rw [current, div_concat_of_eq x h, succ_mul, ← List.drop_drop, drop_concat]
  refine List.drop_eq_nil_of_le ?_
  rw [List.length_append, length_current, List.length_singleton, h]

theorem complete_concat_of_eq (f : List α → ℕ) (h : l.length % w + 1 = w) :
    complete f w (l ++ [x]) = complete f w l + f (current w l ++ [x]) := by
  have hlast : window w (l ++ [x]) (l.length / w) = current w l ++ [x] := by
    rw [window, slice, drop_concat]
    refine List.take_of_length_le ?_
    rw [List.length_append, length_current, List.length_singleton, h]
  rw [complete, div_concat_of_eq x h, sum_range_succ, sum_window_concat, hlast]

end Concat

end Windows
