import Valgrind.Core.Basics

/-!
# Core/LibcAssert — `coregrind/m_libcassert.c`: how a call ends without returning

A core function that does not return fails an assertion (`vg_assert`, `tl_assert`, `aspacem_assert`,
libc's `assert`), panics with a message, dereferences a pointer to nowhere, or ends the process.  A
model of such a function returns in `Except Abort`. -/

namespace Valgrind

/-- The ways in which a call does not return. -/
inductive Abort where
  /-- A failed `vg_assert`, `tl_assert`, `aspacem_assert` or `assert`. -/
  | assertion
  /-- A failed `vg_assert2`, with its message. -/
  | assertion2 (msg : String)
  /-- `VG_(core_panic)`. -/
  | panic (msg : String)
  /-- A NULL pointer is read or written through. -/
  | nullPointer
  /-- Memory outside every live block is read or written. -/
  | wildAccess
  /-- `VG_(exit)`, with the message before it. -/
  | exit (status : ℕ) (msg : String)
  /-- The call would run forever. -/
  | diverges
  /-- Signed arithmetic overflows, or divides by zero. -/
  | arithmetic
deriving DecidableEq, Repr

/-- `vg_assert`, `tl_assert`, `aspacem_assert`. -/
def vgAssert (p : Prop) [Decidable p] : Except Abort Unit := if p then .ok () else .error .assertion

/-! ## Going on after a call -/

section Bind

variable {ε α β : Type}

@[simp] theorem pure_eq_ok (a : α) : (pure a : Except ε α) = .ok a := rfl

@[simp] theorem ok_bind (a : α) (f : α → Except ε β) : (Except.ok a >>= f) = f a := rfl

@[simp] theorem error_bind (e : ε) (f : α → Except ε β) :
    ((Except.error e : Except ε α) >>= f) = .error e := rfl

/-- A call followed by another returns iff both do. -/
theorem bind_eq_ok {m : Except ε α} {f : α → Except ε β} {b : β} :
    (m >>= f) = .ok b ↔ ∃ a, m = .ok a ∧ f a = .ok b := by
  cases m with
  | error e => simp
  | ok a => simp

end Bind

theorem vgAssert_of {p : Prop} [Decidable p] (h : p) : vgAssert p = .ok () := if_pos h

@[simp] theorem vgAssert_eq_ok {p : Prop} [Decidable p] {u : Unit} : vgAssert p = .ok u ↔ p := by
  rw [vgAssert]
  split_ifs with h
  · exact iff_of_true rfl h
  · exact iff_of_false nofun h

/-- What follows an assertion returns only if the assertion holds. -/
theorem vgAssert_bind_eq_ok {α : Type} {p : Prop} [Decidable p] {f : Unit → Except Abort α} {a : α} :
    (vgAssert p >>= f) = .ok a ↔ p ∧ f () = .ok a := by
  rw [bind_eq_ok]
  exact ⟨fun ⟨_, hp, h⟩ => ⟨vgAssert_eq_ok.mp hp, h⟩, fun ⟨hp, h⟩ => ⟨(), vgAssert_of hp, h⟩⟩

/-- …and an assertion that holds may be skipped. -/
theorem vgAssert_bind {α : Type} {p : Prop} [Decidable p] (h : p) (f : Unit → Except Abort α) :
    (vgAssert p >>= f) = f () := by
  rw [vgAssert_of h, ok_bind]

end Valgrind
