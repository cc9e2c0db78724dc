import Mathlib.Tactic

/-!
# Foundations/Text — lines of a text, and decimal numerals

A text is a list of characters.  `lines` splits it at newlines as a reader does that collects one
line at a time: a last line needs no newline, and nothing after the last newline is no line.
-/

namespace Text

open List Nat

/-! ## Lines -/

/-- The lines of a text of which the given characters, in reverse, have been read already. -/
def linesFrom : List Char → List Char → List (List Char)
  | [], [] => []
  | acc, [] => [acc.reverse]
  | acc, c :: s => if c = '\n' then acc.reverse :: linesFrom [] s else linesFrom (c :: acc) s

/-- The lines of a text. -/
def lines (s : List Char) : List (List Char) := linesFrom [] s

/-- The text of a list of lines. -/
def unlines (ls : List (List Char)) : List Char := ls.flatMap (· ++ ['\n'])

theorem unlines_append (ls ms : List (List Char)) : unlines (ls ++ ms) = unlines ls ++ unlines ms :=
  flatMap_append

theorem unlines_singleton (l : List Char) : unlines [l] = l ++ ['\n'] := flatMap_singleton ..

theorem linesFrom_append (acc s t : List Char) :
    linesFrom acc (s ++ '\n' :: t) = linesFrom acc (s ++ ['\n']) ++ lines t := by
  induction s generalizing acc with
  | nil => simp [linesFrom, lines]
  | cons c s ih =>
    by_cases hc : c = '\n'
    · simp [linesFrom, hc, ih []]
    · simp [linesFrom, hc, ih (c :: acc)]

/-- A newline separates the lines before it from those after. -/
theorem lines_append (s t : List Char) : lines (s ++ '\n' :: t) = lines (s ++ ['\n']) ++ lines t :=
  linesFrom_append [] s t

theorem linesFrom_of_notMem {l : List Char} (h : '\n' ∉ l) (acc : List Char) :
    linesFrom acc (l ++ ['\n']) = [acc.reverse ++ l] := by
  induction l generalizing acc with
  | nil => simp [linesFrom]
  | cons c l ih =>
    obtain ⟨hc, hl⟩ := not_or.mp (mt mem_cons.mpr h)
    simp [linesFrom, Ne.symm hc, ih hl]

/-- **Lines without a newline of their own are read as they were written.** -/
theorem lines_unlines {ls : List (List Char)} (h : ∀ l ∈ ls, '\n' ∉ l) : lines (unlines ls) = ls := by
  induction ls with
  | nil => rfl
  | cons l ls ih =>
    obtain ⟨hl, hls⟩ := forall_mem_cons.mp h
    have hsplit : unlines (l :: ls) = l ++ '\n' :: unlines ls := by simp [unlines]
    rw [hsplit, lines_append, lines, linesFrom_of_notMem hl, ih hls]
    rfl

/-- No line holds a newline. -/
theorem notMem_of_mem_lines {s l : List Char} (hl : l ∈ lines s) : '\n' ∉ l := by
  have haux : ∀ (s acc : List Char), '\n' ∉ acc → ∀ l ∈ linesFrom acc s, '\n' ∉ l := by
    intro s
    induction s with
    | nil =>
      intro acc hacc l hl
      cases acc with
      | nil => simp [linesFrom] at hl
      | cons a acc =>
        obtain rfl : l = (a :: acc).reverse := by simpa [linesFrom] using hl
        rwa [mem_reverse]
    | cons c s ih =>
      intro acc hacc l hl
      rw [linesFrom] at hl
      split_ifs at hl with hc
      · rcases mem_cons.mp hl with rfl | hl
        · rwa [mem_reverse]
        · exact ih [] (by simp) l hl
      · exact ih (c :: acc) (by simp [Ne.symm hc, hacc]) l hl
  exact haux s [] (by simp) l hl

/-! ## Decimal numerals -/

/-- The value of a decimal digit. -/
def digitVal (c : Char) : ℕ := c.toNat - 48

/-- The number a list of digits stands for. -/
def readDigits (ds : List Char) : ℕ := ds.foldl (fun n c => n * 10 + digitVal c) 0

theorem digitVal_digitChar {d : ℕ} (h : d < 10) : digitVal d.digitChar = d := by
  interval_cases d <;> rfl

/-- **A numeral stands for the number it was written for.** -/
theorem readDigits_toDigits (n : ℕ) : readDigits (Nat.toDigits 10 n) = n := by
  induction n using Nat.strong_induction_on with
  | _ n ih =>
    rw [toDigits_eq_if (by norm_num)]
    split_ifs with h
    · simp [readDigits, digitVal_digitChar h]
    · have hrec := ih (n / 10) (by omega)
      rw [readDigits] at hrec ⊢
      rw [foldl_append, hrec, foldl_cons, foldl_nil,
        digitVal_digitChar (mod_lt n (by norm_num))]
      omega

/-- Reading modulo a bound at every digit is reading modulo it. -/
theorem foldl_digits_mod (b : ℕ) (ds : List Char) (n : ℕ) :
    ds.foldl (fun n c => (n * 10 + digitVal c) % b) (n % b)
      = ds.foldl (fun n c => n * 10 + digitVal c) n % b := by
  induction ds generalizing n with
  | nil => rfl
  | cons c ds ih =>
    rw [foldl_cons, foldl_cons, ← ih]
    congr 1
    rw [add_mod, mod_mul_mod, ← add_mod]

theorem isDigit_of_mem_toDigits {n : ℕ} {c : Char} (h : c ∈ Nat.toDigits 10 n) : c.isDigit :=
  Nat.isDigit_of_mem_toDigits (by norm_num) le_rfl h

end Text
