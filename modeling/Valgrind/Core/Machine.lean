import Valgrind.Core.Basics

/-!
# Core/Machine — instruction and register sizes of `pub_tool_machine.h` and `m_machine.c`

The guest architectures Valgrind is built for, with the sizes a tool may rely on.  The hardware
capabilities that decide the size of the largest register are part of the architecture here.
-/

namespace Valgrind

/-- A guest architecture.  `avx` and `exotic` are what `hwcaps` says: AVX on amd64, and Altivec, VSX
or decimal floating point on ppc. -/
inductive Arch
  | x86
  | amd64 (avx : Bool)
  | ppc32 (exotic : Bool)
  | ppc64 (exotic : Bool)
  | arm
  | arm64
  | s390x
  | mips32
  | mips64
  | nanomips
  deriving DecidableEq, Repr

namespace Arch

/-- `VG_MIN_INSTR_SZB`. -/
def minInstrSzb : Arch → ℕ
  | x86 | amd64 _ => 1
  | ppc32 _ | ppc64 _ | arm64 | mips32 | mips64 => 4
  | arm | s390x | nanomips => 2

/-- `VG_MAX_INSTR_SZB`. -/
def maxInstrSzb : Arch → ℕ
  | x86 | amd64 _ => 16
  | ppc32 _ | ppc64 _ | arm | arm64 => 4
  | s390x | nanomips => 6
  | mips32 | mips64 => 8

/-- `VG_CLREQ_SZB`, the length of a client request. -/
def clreqSzb : Arch → ℕ
  | x86 => 14
  | amd64 _ => 19
  | s390x => 10
  | _ => 20

/-- `VG_(machine_get_size_of_largest_guest_register)`. -/
def machineGetSizeOfLargestGuestRegister : Arch → ℤ
  | x86 => 16
  | amd64 avx => if avx then 32 else 16
  | ppc32 exotic | ppc64 exotic => if exotic then 16 else 8
  | s390x => 8
  | arm | arm64 => 16
  | mips32 | nanomips | mips64 => 8

/-- The instruction sizes a tool has to expect: those of one instruction, and that of a client
request. -/
def InstrSize (arch : Arch) (isize : ℕ) : Prop :=
  (arch.minInstrSzb ≤ isize ∧ isize ≤ arch.maxInstrSzb) ∨ arch.clreqSzb = isize

instance (arch : Arch) (isize : ℕ) : Decidable (arch.InstrSize isize) :=
  inferInstanceAs (Decidable (_ ∨ _))

/-- No instruction is longer than 20 bytes. -/
theorem InstrSize.bounds {arch : Arch} {isize : ℕ} (h : arch.InstrSize isize) :
    1 ≤ isize ∧ isize ≤ 20 := by
  cases arch <;> simp only [InstrSize, minInstrSzb, maxInstrSzb, clreqSzb] at h <;> omega

end Arch

end Valgrind
