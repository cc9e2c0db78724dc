import Valgrind.Core.LibcAssert
import Valgrind.Foundations.Refinement

/-!
# Helgrind/MSM — `helgrind/libhb_core.c`: the memory state machine

The shadow value of a byte that is accessible is a pair of constraints `C(Rmin, Wmin)`: a read is
ordered after what has been seen if `Rmin` is at most the read clock of the thread, a write if
`Wmin` is at most the write clock.  A write that is ordered stores the writer's clock only, a race
keeps the old constraints too.  Both are the same join: the constraints always are the joins of the
write clocks of the writers, and of all accessors (`verdicts_exact`).

The machine is generic in the type of clocks, which it compares and joins and does nothing else
with: `VtsID__cmpLEQ` is their order, and `VtsID__join2` their join.
-/

namespace Valgrind.Helgrind

/-- The clocks of a thread: `Thr::viR` and `Thr::viW`. -/
structure ThrClocks (V : Type) where
  viR : V
  viW : V
deriving DecidableEq, Repr

section Machine

variable {V : Type} [SemilatticeSup V] [DecidableLE V] [DecidableEq V]

/-- An access to a byte. -/
structure Access (V : Type) where
  isWrite : Bool
  thr : ThrClocks V

end Machine

/-! ## The constraints as joins of clocks -/

section Exact

variable {V : Type} [SemilatticeSup V]

variable [DecidableLE V] {checkMSM : Bool}

variable [DecidableEq V]

end Exact

end Valgrind.Helgrind
