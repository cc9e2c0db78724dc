import Mathlib.Logic.Relation

/-!
# Foundations/Reachability — nodes on paths from roots

`Reach root edge` are the nodes that a path of edges leads to from a root.  It is the least set that
has the roots and is closed under the edges: `Reach.subset`.
-/

namespace Reachability

variable {ι : Type} {root : ι → Prop} {edge : ι → ι → Prop} {i j : ι}

/-- Some path of edges leads from a root to `j`. -/
def Reach (root : ι → Prop) (edge : ι → ι → Prop) (j : ι) : Prop :=
  ∃ i, root i ∧ Relation.ReflTransGen edge i j

namespace Reach

theorem of_root (h : root i) : Reach root edge i := ⟨i, h, .refl⟩

theorem step (h : Reach root edge i) (he : edge i j) : Reach root edge j :=
  let ⟨r, hr, hp⟩ := h
  ⟨r, hr, hp.tail he⟩

/-- A closed set with the roots has every node that is reached. -/
theorem subset {M : ι → Prop} (hroot : ∀ i, root i → M i) (hedge : ∀ i j, M i → edge i j → M j)
    (h : Reach root edge j) : M j := by
  obtain ⟨r, hr, hp⟩ := h
  induction hp with
  | refl => exact hroot r hr
  | tail _ he ih => exact hedge _ _ ih he

end Reach

end Reachability
