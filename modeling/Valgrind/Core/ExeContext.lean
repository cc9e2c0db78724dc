import Valgrind.Core.Basics

/-!
# Core/ExeContext — `coregrind/m_execontext.c`: equality of execution contexts

A context is known by the pointer to it; its code addresses and its epoch are stored there.
`VG_(eq_ExeContext)` compares two of them as far as a resolution says.  It is an equivalence at
every resolution: contexts are equal iff the same is **seen** of them (`eqExeContext_iff`). -/

namespace Valgrind

/-- `VgRes`. -/
inductive VgRes where
  | lowRes
  | medRes
  | highRes
deriving DecidableEq, Repr

/-- The recorded contexts: where each one is stored, its epoch and its code addresses. -/
structure ExeContexts (γ : Type) where
  addr : γ → Addr
  addr_injective : Function.Injective addr
  epoch : γ → ℕ
  ips : γ → List Addr
  /-- There is at least one address in each trace. -/
  ips_ne_nil : ∀ e, ips e ≠ []

namespace ExeContexts

/-- The loop over the top `n` callers, and the comparison of the epochs behind it. -/
def eqCallers (sameEpoch : Bool) : ℕ → List Addr → List Addr → Bool
  | 0, _, _ => sameEpoch
  | _ + 1, [], [] => true
  | _ + 1, [], _ :: _ => false
  | _ + 1, _ :: _, [] => false
  | n + 1, ip1 :: ips1, ip2 :: ips2 =>
    if ip1 ≠ ip2 then false else eqCallers sameEpoch n ips1 ips2

variable {γ : Type} (E : ExeContexts γ)

/-- `VG_(eq_ExeContext)`, of two contexts. -/
def eqExeContext (res : VgRes) (e1 e2 : γ) : Bool :=
  match res with
  | .lowRes => eqCallers (E.epoch e1 = E.epoch e2) 2 (E.ips e1) (E.ips e2)
  | .medRes => eqCallers (E.epoch e1 = E.epoch e2) 4 (E.ips e1) (E.ips e2)
  | .highRes => E.addr e1 = E.addr e2

/-- What is seen of a trace with `n` callers: a shorter one is seen without its epoch. -/
def callers (n epoch : ℕ) (ips : List Addr) : List Addr × Option ℕ :=
  (ips.take n, if n ≤ ips.length then some epoch else none)

/-- **What is seen of a context** at a resolution. -/
def seen (res : VgRes) (e : γ) : List Addr × Option ℕ :=
  match res with
  | .lowRes => callers 2 (E.epoch e) (E.ips e)
  | .medRes => callers 4 (E.epoch e) (E.ips e)
  | .highRes => ([E.addr e], none)

theorem eqCallers_iff (ep1 ep2 n : ℕ) (ips1 ips2 : List Addr) :
    eqCallers (ep1 = ep2) n ips1 ips2 = true ↔ callers n ep1 ips1 = callers n ep2 ips2 := by
  induction n generalizing ips1 ips2 with
  | zero => simp [eqCallers, callers]
  | succ n ih =>
    match ips1, ips2 with
    | [], [] => simp [eqCallers, callers]
    | [], _ :: _ => simp [eqCallers, callers]
    | _ :: _, [] => simp [eqCallers, callers]
    | ip1 :: ips1, ip2 :: ips2 =>
      rw [eqCallers]
      split_ifs with hne
      · simp [callers, hne]
      · rw [ih, not_not.mp hne]
        simp [callers]

/-- **Contexts are equal at a resolution iff the same is seen of them.** -/
theorem eqExeContext_iff (res : VgRes) (e1 e2 : γ) :
    E.eqExeContext res e1 e2 = true ↔ E.seen res e1 = E.seen res e2 := by
  cases res with
  | lowRes | medRes => exact eqCallers_iff ..
  | highRes => simp [eqExeContext, seen]

end ExeContexts

end Valgrind
