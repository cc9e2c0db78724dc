import Mathlib.Data.Nat.Bitwise
import Mathlib.Tactic

/-!
# Core/Basics — the machine types of `pub_tool_basics.h`

A word is a natural number and a C conversion is an explicit remainder: `Addr`, `UWord` and
`ULong` are 64 bits wide, `UInt` and `Int` 32, `UChar` 8.  Counters the tool only ever increments
stay unbounded; addresses, sizes and set numbers are reduced where the code converts them.
-/

namespace Valgrind

/-- A host word. -/
abbrev UWord := ℕ

/-- A guest address. -/
abbrev Addr := ℕ

/-- `(UInt) n` for an `Int` or `Long`. -/
def toUInt (n : ℤ) : ℕ := (n % 2 ^ 32).toNat

/-- `(ULong) n`, also the sign extension of an `Int` operand to `UWord`. -/
def toULong (n : ℤ) : ℕ := (n % 2 ^ 64).toNat

/-- `(UChar) n`. -/
def toUChar (n : ℕ) : ℕ := n % 2 ^ 8

/-- `(Int) n`, and the wrapped result of 32-bit signed arithmetic. -/
def toInt (n : ℤ) : ℤ := Int.bmod n (2 ^ 32)

theorem toULong_of_nonneg {n : ℤ} (h0 : 0 ≤ n) (h : n < 2 ^ 64) : toULong n = n.toNat := by
  rw [toULong, Int.emod_eq_of_lt h0 h]

theorem toUInt_of_nonneg {n : ℤ} (h0 : 0 ≤ n) (h : n < 2 ^ 32) : toUInt n = n.toNat := by
  rw [toUInt, Int.emod_eq_of_lt h0 h]

end Valgrind
