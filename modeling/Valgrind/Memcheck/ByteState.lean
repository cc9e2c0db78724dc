import Valgrind.Core.Basics

/-!
# Memcheck/ByteState — what memcheck records of each byte

The abstract state of the shadow memory: every address is noaccess or carries eight V bits, of which
a set bit means undefined.  The functions here are what `make_mem_*` and `copy_address_range_state`
are for; ranges are taken modulo the size of the address space, as the code's address arithmetic
does.
-/

namespace Valgrind.Memcheck

/-- The state of one byte. -/
inductive ByteState where
  | noaccess
  | vbits8 (v : BitVec 8)
deriving DecidableEq, Repr

namespace ByteState

/-- `V_BITS8_DEFINED`. -/
def defined : ByteState := .vbits8 0

/-- `V_BITS8_UNDEFINED`. -/
def undefined : ByteState := .vbits8 0xFF

theorem defined_ne_noaccess : defined ≠ noaccess := nofun

theorem undefined_ne_noaccess : undefined ≠ noaccess := nofun

theorem ite_noaccess_iff {p : Prop} [Decidable p] {s : ByteState} :
    (if p then noaccess else s) = noaccess ↔ s = noaccess ∨ p := by
  split_ifs with hp <;> simp [hp]

end ByteState

/-- The state of all bytes, by address. -/
abbrev ByteMap := ℕ → ByteState

/-- How far the address `x` is above `a`, around the end of the address space. -/
def distance (a x : ℕ) : ℕ := (x + (2 ^ 64 - a)) % 2 ^ 64

theorem distance_eq {a x : ℕ} (hax : a ≤ x) (hx : x < 2 ^ 64) : distance a x = x - a := by
  rw [distance]
  omega

/-- `x` is one of the `len` addresses from `a` on. -/
def InRange (a len x : ℕ) : Prop := distance a x < len

instance (a len x : ℕ) : Decidable (InRange a len x) :=
  inferInstanceAs (Decidable (distance a x < len))

/-- A range that does not wrap is an interval. -/
theorem inRange_iff {a len x : ℕ} (hlen : a + len ≤ 2 ^ 64) (hx : x < 2 ^ 64) :
    InRange a len x ↔ a ≤ x ∧ x < a + len := by
  rw [InRange, distance]
  omega

namespace ByteMap

variable (m : ByteMap) (a len : ℕ)

/-- All bytes of a range to one state. -/
def setRange (s : ByteState) : ByteMap := fun x => if InRange a len x then s else m x

/-- `MC_(make_mem_noaccess)`. -/
def makeMemNoaccess : ByteMap := m.setRange a len .noaccess

/-- `make_mem_undefined`, without the origin tag. -/
def makeMemUndefined : ByteMap := m.setRange a len .undefined

/-- `MC_(make_mem_defined)`. -/
def makeMemDefined : ByteMap := m.setRange a len .defined

/-- `MC_(copy_address_range_state)`: each byte of the destination takes the state its source byte
had before the call. -/
def copyAddressRangeState (src dst : ℕ) : ByteMap := fun x =>
  if InRange dst len x then m ((src + distance dst x) % 2 ^ 64) else m x

variable {m a len}

theorem setRange_apply {a len x : ℕ} (hlen : a + len ≤ 2 ^ 64) (hx : x < 2 ^ 64) (s : ByteState) :
    m.setRange a len s x = if a ≤ x ∧ x < a + len then s else m x := by
  simp only [setRange, inRange_iff hlen hx]

theorem copyAddressRangeState_apply {src dst len x : ℕ} (hsrc : src + len ≤ 2 ^ 64)
    (hdst : dst + len ≤ 2 ^ 64) (hx : x < 2 ^ 64) :
    m.copyAddressRangeState len src dst x =
      if dst ≤ x ∧ x < dst + len then m (src + (x - dst)) else m x := by
  simp only [copyAddressRangeState, inRange_iff hdst hx]
  split_ifs with hin
  · rw [distance_eq hin.1 hx, Nat.mod_eq_of_lt (by omega)]
  · rfl

theorem makeMemNoaccess_apply {a len x : ℕ} (hlen : a + len ≤ 2 ^ 64) (hx : x < 2 ^ 64) :
    m.makeMemNoaccess a len x = if a ≤ x ∧ x < a + len then .noaccess else m x :=
  setRange_apply hlen hx .noaccess

end ByteMap

end Valgrind.Memcheck
