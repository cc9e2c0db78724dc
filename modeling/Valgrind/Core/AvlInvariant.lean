import Valgrind.Core.AvlCode
import Valgrind.Foundations.SortedList

/-!
# Core/AvlInvariant — the shared AVL code keeps a balanced search tree

Insertion and deletion are taken apart at the node where the height of a subtree changes.  What the
code does on the left is the mirror image of what it does on the right, so a node is looked at from
the side of the change.  A subtree higher by two is swung (`heavy_spec`); with that a change of
height is absorbed or passed on (`grown_spec`, `shrunk_spec`), and the recursion follows the tree.

* `avlInsert_spec` — the node comes to stand where a search for it ends, the tree stays balanced.
* `avlRemove_spec` — exactly the given node is gone, the tree stays balanced, no assertion fails.
* `avlFind_eq_some_iff` — a search finds exactly the node with an equal key.

`avlInsert_addLeaf` is a converse of the first: if a tree and the tree with one more leaf are both
balanced, inserting the leaf swings nothing.
-/

namespace Valgrind

open List hiding nil
open Bool (toNat_false toNat_true)
open AvlTree (nil node leaf height_nil toList_node isNil_iff sided beside
  side side_ne_zero height_sided toList_sided balanced_sided exists_sided)
open SortedList (Ordered Cut)

variable {κ α ω : Type} {x : α} {b : ℤ} {l r t t' u : AvlTree α} {vs : List α}

namespace AvlCode

variable (c : AvlCode κ α) {p : AvlTree α × Bool} {n : α} {grown : Bool}

/-! ## Changes of height -/

/-- A balanced tree over the values `vs`, of height `h` or, if the flag says so, one more. -/
structure Grown (vs : List α) (h : ℕ) (p : AvlTree α × Bool) : Prop where
  balanced : p.1.Balanced
  toList : p.1.toList = vs
  height : p.1.height = h + p.2.toNat

/-- A balanced tree over the values `vs`, of height `h` or, if the flag says so, one less. -/
structure Shrunk (vs : List α) (h : ℕ) (p : AvlTree α × Bool) : Prop where
  balanced : p.1.Balanced
  toList : p.1.toList = vs
  height : p.1.height + p.2.toNat = h

/-- A grown tree leans to one side. -/
def Leans : AvlTree α → Prop
  | nil => False
  | node _ _ b _ => b ≠ 0

@[simp] theorem getBalance_node (l : AvlTree α) (x : α) (b : ℤ) (r : AvlTree α) :
    getBalance (node l x b r) = .ok b := rfl

/-! ## The two sides -/

section Sides

variable (s : Bool) (t : AvlTree α) (x : α) (b : ℤ) (u : AvlTree α)

/-- The rest of `avl_insert` at a node where the subtree `t` on one side has grown. -/
def grownOn : Except Abort (AvlTree α × Bool) :=
  bif s then c.leftGrown t x b u else c.rightGrown u x b t

/-- The rest of `avl_remove` at a node where the subtree `t` on one side has shrunk. -/
def shrunkOn : Except Abort (AvlTree α × Bool) :=
  bif s then c.leftShrunk t x b u else c.rightShrunk u x b t

/-- The node with its subtree on one side replaced by what `avl_insert` made of it. -/
def insertedOn (p : AvlTree α × Bool × ω) : Except Abort (AvlTree α × Bool × ω) :=
  bif s then c.leftInserted x b u p else c.rightInserted u x b p

/-- The node with its subtree on one side replaced by what `avl_remove` left of it. -/
def removedOn (p : AvlTree α × Bool) : Except Abort (AvlTree α × Bool) :=
  bif s then c.leftRemoved x b u p else c.rightRemoved u x b p

variable {s t x b u}

theorem leans_sided : Leans (sided s t x b u) ↔ b ≠ 0 := by
  cases s <;> rfl

end Sides

/-- A node with a leaning subtree that is higher by two is swung to the other side: insertion and
deletion do the same, and report no growth and a loss. -/
theorem heavy_spec (s : Bool) (ht : t.Balanced) (hu : u.Balanced) (hh : t.height = u.height + 2)
    (hlean : Leans t) : ∃ v, c.grownOn s t x (side s) u = .ok (v, false)
      ∧ c.shrunkOn (!s) u x (side s) t = .ok (v, true) ∧ v.Balanced
      ∧ v.toList = beside s t.toList x u.toList ∧ v.height = u.height + 2 := by
  obtain ⟨v, y, bt, w, rfl⟩ := exists_sided s (t := t) (by omega)
  obtain ⟨hv, hw, ⟨rfl, hb⟩ | ⟨rfl, hb⟩ | ⟨rfl, hb⟩⟩ := balanced_sided.mp ht
  · obtain ⟨a, z, bz, d, rfl⟩ := exists_sided s (t := w) (by omega)
    obtain ⟨ha, hd, hz⟩ := balanced_sided.mp hw
    simp only [height_sided] at hb hh
    -- the balances of the two lower nodes are what `avl_nasty` makes of that of the upper one
    obtain ⟨b₁, b₂, h₁, h₂, hg, hs⟩ : ∃ b₁ b₂,
        (sided s v y b₁ a).Balanced ∧ (sided s d x b₂ u).Balanced
        ∧ c.grownOn s (sided s v y (-side s) (sided s a z bz d)) x (side s) u
          = .ok (sided s (sided s v y b₁ a) z 0 (sided s d x b₂ u), false)
        ∧ c.shrunkOn (!s) u x (side s) (sided s v y (-side s) (sided s a z bz d))
          = .ok (sided s (sided s v y b₁ a) z 0 (sided s d x b₂ u), true) := by
      simp only [balanced_sided, hv, ha, hd, hu, true_and]
      obtain ⟨rfl, hz⟩ | ⟨rfl, hz⟩ | ⟨rfl, hz⟩ := hz
      on_goal 1 => refine ⟨side s, 0, by omega, by omega, ?_⟩
      on_goal 2 => refine ⟨0, 0, by omega, by omega, ?_⟩
      on_goal 3 => refine ⟨0, -side s, by omega, by omega, ?_⟩
      all_goals
        cases s <;>
        simp [grownOn, shrunkOn, leftGrown, rightGrown, leftShrunk, rightShrunk, sided, side] <;>
        exact ⟨rfl, rfl⟩
    refine ⟨_, hg, hs, balanced_sided.mpr ⟨h₁, h₂, .inr (.inl ⟨rfl, ?_⟩)⟩,
      by cases s <;> simp [sided, beside], ?_⟩ <;>
    simp only [height_sided] <;>
    omega
  · exact absurd rfl (leans_sided.mp hlean)
  · simp only [height_sided] at hh
    refine ⟨sided s v y 0 (sided s w x 0 u), ?_, ?_,
      balanced_sided.mpr ⟨hv, balanced_sided.mpr ⟨hw, hu, by omega⟩, .inr (.inl ⟨rfl, ?_⟩)⟩,
      by cases s <;> simp [sided, beside], ?_⟩
    · cases s <;> simp [grownOn, sided, side, leftGrown, rightGrown] <;> rfl
    · cases s <;> simp [shrunkOn, sided, side, leftShrunk, rightShrunk] <;> rfl
    all_goals
      simp only [height_sided]
      omega

/-! ## A subtree changes its height -/

section

variable (s : Bool) (hn : (sided s t x b u).Balanced) (ht' : t'.Balanced)
include hn ht'

/-- **Growth on one side is absorbed or passed on**, and passed on only with the root in place. -/
theorem grown_spec (hh : t'.height = t.height + 1) (hlean : b = side s → Leans t') :
    ∃ p, c.grownOn s t' x b u = .ok p
      ∧ Grown (beside s t'.toList x u.toList) (sided s t x b u).height p
      ∧ (p.2 → p.1 = sided s t' x (side s) u) := by
  rw [height_sided]
  obtain ⟨ht, hu, ⟨rfl, hb⟩ | ⟨rfl, hb⟩ | ⟨rfl, hb⟩⟩ := balanced_sided.mp hn
  · refine ⟨(sided s t' x 0 u, false), by cases s <;> rfl,
      ⟨balanced_sided.mpr ⟨ht', hu, by omega⟩, toList_sided, ?_⟩, nofun⟩
    rw [height_sided, toNat_false]
    omega
  · refine ⟨(sided s t' x (side s) u, true), by cases s <;> rfl,
      ⟨balanced_sided.mpr ⟨ht', hu, by omega⟩, toList_sided, ?_⟩, fun _ => rfl⟩
    rw [height_sided, toNat_true]
    omega
  · obtain ⟨v, hv, -, hbal, hlist, hheight⟩ := c.heavy_spec s ht' hu (by omega) (hlean rfl)
    refine ⟨_, hv, ⟨hbal, hlist, ?_⟩, nofun⟩
    rw [hheight, toNat_false]
    omega

/-- **A loss on one side is absorbed or passed on.** -/
theorem shrunk_spec (hh : t'.height + 1 = t.height) : ∃ p, c.shrunkOn s t' x b u = .ok p
      ∧ Shrunk (beside s t'.toList x u.toList) (sided s t x b u).height p := by
  rw [height_sided]
  obtain ⟨ht, hu, ⟨rfl, hb⟩ | ⟨rfl, hb⟩ | ⟨rfl, hb⟩⟩ := balanced_sided.mp hn
  · by_cases hlean : Leans u
    · obtain ⟨v, -, hv, hbal, hlist, hheight⟩ := c.heavy_spec (!s) hu ht' (by omega) hlean
      refine ⟨(v, true), by cases s <;> exact hv, hbal, by cases s <;> exact hlist, ?_⟩
      rw [hheight, toNat_true]
      omega
    · obtain ⟨v, y, bu, w, rfl⟩ := exists_sided s (t := u) (by omega)
      obtain rfl : bu = 0 := not_not.mp (mt leans_sided.mpr hlean)
      obtain ⟨hv, hw, hbu⟩ := balanced_sided.mp hu
      have hside := side_ne_zero s
      rw [height_sided] at hb ⊢
      refine ⟨(sided s (sided s t' x (-side s) v) y (side s) w, false), ?_,
        balanced_sided.mpr ⟨balanced_sided.mpr ⟨ht', hv, by omega⟩, hw, .inr (.inr ⟨rfl, ?_⟩)⟩,
        by cases s <;> simp [sided, beside], ?_⟩
      · cases s <;> simp [shrunkOn, sided, side, leftShrunk, rightShrunk] <;> rfl
      all_goals
        simp only [height_sided, toNat_false]
        omega
  · refine ⟨(sided s t' x (-side s) u, false), by cases s <;> rfl,
      balanced_sided.mpr ⟨ht', hu, by omega⟩, toList_sided, ?_⟩
    rw [height_sided, toNat_false]
    omega
  · refine ⟨(sided s t' x 0 u, true), by cases s <;> rfl,
      balanced_sided.mpr ⟨ht', hu, by omega⟩, toList_sided, ?_⟩
    rw [height_sided, toNat_true]
    omega

/-- A subtree may be replaced by one of the same height. -/
theorem balanced_replace (hh : t'.height = t.height) (y : α) : (sided s t' y b u).Balanced
    ∧ (sided s t' y b u).height = (sided s t x b u).height := by
  rw [balanced_sided] at hn ⊢
  rw [height_sided, height_sided, hh]
  exact ⟨⟨ht', hn.2⟩, rfl⟩

end
/-! ## Insertion -/

/-- Where a search for the key of `n` places it among the values of a tree: between them, or, on a
duplicate, not at all. -/
inductive Placed (n : α) (dup : α → Except Abort (α × ω)) (fresh : ω) : List α → List α → ω → Prop
  | fresh {l r : List α} : (∀ y ∈ l, c.cmp (c.key n) y = .gt) → (∀ y ∈ r, c.cmp (c.key n) y = .lt) →
    Placed n dup fresh (l ++ r) (l ++ n :: r) fresh
  | dup {l r : List α} {x x' : α} {o : ω} : (∀ y ∈ l, c.cmp (c.key n) y = .gt) →
    (∀ y ∈ r, c.cmp (c.key n) y = .lt) → c.cmp (c.key n) x = .eq → dup x = .ok (x', o) →
    Placed n dup fresh (l ++ x :: r) (l ++ x' :: r) o

namespace Placed

variable {c} {n : α} {dup : α → Except Abort (α × ω)} {fresh o : ω} {l l' s : List α}

section

variable (h : c.Placed n dup fresh l l' o)
include h

theorem append_right (hs : ∀ y ∈ s, c.cmp (c.key n) y = .lt) :
    c.Placed n dup fresh (l ++ s) (l' ++ s) o := by
  cases h with
  | fresh hl hr =>
    rw [append_assoc, append_assoc, cons_append]
    exact .fresh hl fun y hy => (mem_append.mp hy).elim (hr y) (hs y)
  | dup hl hr hx hd =>
    rw [append_assoc, append_assoc, cons_append, cons_append]
    exact .dup hl (fun y hy => (mem_append.mp hy).elim (hr y) (hs y)) hx hd

theorem append_left (hs : ∀ y ∈ s, c.cmp (c.key n) y = .gt) :
    c.Placed n dup fresh (s ++ l) (s ++ l') o := by
  cases h with
  | fresh hl hr =>
    rw [← append_assoc, ← append_assoc]
    exact .fresh (fun y hy => (mem_append.mp hy).elim (hs y) (hl y)) hr
  | dup hl hr hx hd =>
    rw [← append_assoc, ← append_assoc]
    exact .dup (fun y hy => (mem_append.mp hy).elim (hs y) (hl y)) hr hx hd

/-- The two ways a node is placed. -/
theorem eq_or_eq :
    (∃ u v, l = u ++ v ∧ l' = u ++ n :: v ∧ (∀ y ∈ u, c.cmp (c.key n) y = .gt)
      ∧ (∀ y ∈ v, c.cmp (c.key n) y = .lt) ∧ o = fresh)
    ∨ ∃ u x x' v, l = u ++ x :: v ∧ l' = u ++ x' :: v ∧ c.cmp (c.key n) x = .eq
      ∧ dup x = .ok (x', o) := by
  cases h with
  | fresh hl hr => exact .inl ⟨_, _, rfl, rfl, hl, hr, rfl⟩
  | dup _ _ heq hd => exact .inr ⟨_, _, _, _, rfl, rfl, heq, hd⟩

/-- A node whose key is absent is placed between the others. -/
theorem of_absent (hne : ∀ x ∈ l, c.cmp (c.key n) x ≠ .eq) :
    ∃ u v, l = u ++ v ∧ l' = u ++ n :: v ∧ (∀ y ∈ u, c.cmp (c.key n) y = .gt)
      ∧ (∀ y ∈ v, c.cmp (c.key n) y = .lt) ∧ o = fresh := by
  refine h.eq_or_eq.resolve_right ?_
  rintro ⟨u, x, x', v, rfl, -, heq, -⟩
  exact hne x (by simp) heq

end

end Placed

/-- What `avl_insert` makes of a tree `t`, with the values `vs`: it stays balanced, and where it
grows higher it leans to one side and keeps its root node. -/
structure Inserted (t : AvlTree α) (vs : List α) (p : AvlTree α × Bool) : Prop
    extends Grown vs t.height p where
  leans : p.2 → t ≠ nil → Leans p.1
  root : p.2 → t ≠ nil → p.1.root? = t.root?

/-- A grown node with its root in place. -/
theorem Inserted.of_grown {s : Bool} (h : Grown vs (sided s t x b u).height p)
    (hroot : p.2 → p.1 = sided s t' x (side s) u) : Inserted (sided s t x b u) vs p where
  toGrown := h
  leans hg _ := by
    rw [hroot hg, leans_sided]
    exact side_ne_zero s
  root hg _ := by
    rw [hroot hg]
    cases s <;> rfl

section

variable (s : Bool) (hn : (sided s t x b u).Balanced)
include hn

/-- The insertion goes on at the parent. -/
theorem inserted_spec (o : ω) (h : Inserted t vs (t', grown)) :
    ∃ p, c.insertedOn s x b u (t', grown, o) = .ok (p.1, p.2, o)
      ∧ Inserted (sided s t x b u) (beside s vs x u.toList) p := by
  have hvs : t'.toList = vs := h.toList
  have hh : t'.height = t.height + grown.toNat := h.height
  cases grown with
  | true =>
    have hlean (hb : b = side s) : Leans t' := by
      refine h.leans rfl ?_
      rintro rfl
      have hside := side_ne_zero s
      have hd := (balanced_sided.mp hn).2.2
      rw [height_nil] at hd
      omega
    obtain ⟨p, hp, hgrown, hroot⟩ := c.grown_spec s hn h.balanced hh hlean
    refine ⟨p, ?_, .of_grown (hvs ▸ hgrown) hroot⟩
    cases s <;> simp_all [insertedOn, grownOn, leftInserted, rightInserted]
  | false =>
    have hrep := balanced_replace s hn h.balanced hh x
    exact ⟨(sided s t' x b u, false), by cases s <;> rfl,
      ⟨hrep.1, hvs ▸ toList_sided, hrep.2⟩, nofun, nofun⟩

/-- `avl_insert` goes to a side, also where there is no subtree yet. -/
theorem avlInsert_sided {dup : α → Except Abort (α × ω)} (fresh : ω)
    (hx : c.cmp (c.key n) x = bif s then .lt else .gt) :
    c.avlInsert n dup fresh (sided s t x b u)
      = c.avlInsert n dup fresh t >>= c.insertedOn s x b u := by
  by_cases ht : t = nil
  · subst ht
    obtain ⟨-, -, ⟨rfl, -⟩ | ⟨rfl, -⟩ | ⟨-, hb⟩⟩ := balanced_sided.mp hn
    on_goal 3 => cases hb
    all_goals
      cases s <;>
      simp [avlInsert, hx, AvlTree.isNil, insertedOn, leftInserted, rightInserted, leftGrown,
        rightGrown, sided, side]
  · cases s <;>
    simp [avlInsert, hx, isNil_iff, ht, sided] <;>
    rfl

/-- The deletion goes on at the parent. -/
theorem removed_spec (h : Shrunk vs t.height p) : ∃ q, c.removedOn s x b u p = .ok q
      ∧ Shrunk (beside s vs x u.toList) (sided s t x b u).height q := by
  obtain ⟨t', ch⟩ := p
  obtain ⟨hbal, rfl, hh⟩ := h
  cases ch with
  | true =>
    obtain ⟨q, hq, hsh⟩ := c.shrunk_spec s hn hbal hh
    exact ⟨q, by cases s <;> exact hq, hsh⟩
  | false =>
    have hrep := balanced_replace s hn hbal hh x
    exact ⟨(sided s t' x b u, false), by cases s <;> rfl, hrep.1, toList_sided, hrep.2⟩

/-- Taking a node from a side that is not the lower one swings nothing, so the root is still there
to be replaced. -/
theorem replaceRoot_spec (m : α) (hb : b ≠ -side s) (h : Shrunk vs t.height p) :
    ∃ q, (c.removedOn s x b u p >>= replaceRoot m) = .ok q
      ∧ Shrunk (beside s vs m u.toList) (sided s t x b u).height q := by
  obtain ⟨t', ch⟩ := p
  obtain ⟨hbal, rfl, hh⟩ := h
  cases ch with
  | false =>
    have hrep := balanced_replace s hn hbal hh m
    refine ⟨(sided s t' m b u, false), ?_, hrep.1, toList_sided, hrep.2⟩
    cases s <;> simp [removedOn, leftRemoved, rightRemoved, replaceRoot, sided]
  | true =>
    simp only [toNat_true] at hh
    obtain ⟨-, hu, ⟨rfl, hd⟩ | ⟨rfl, hd⟩ | ⟨rfl, hd⟩⟩ := balanced_sided.mp hn
    · exact absurd rfl hb
    · refine ⟨(sided s t' m (-side s) u, false), by cases s <;> rfl,
        balanced_sided.mpr ⟨hbal, hu, by omega⟩, toList_sided, ?_⟩
      rw [height_sided, height_sided, toNat_false]
      omega
    · refine ⟨(sided s t' m 0 u, true), by cases s <;> rfl,
        balanced_sided.mpr ⟨hbal, hu, by omega⟩, toList_sided, ?_⟩
      rw [height_sided, height_sided, toNat_true]
      omega

/-- Where the taller subtree leaves the node balanced, nothing swings. -/
theorem inserted_eq {b' : ℤ} (o : ω) (hn' : (sided s t' x b' u).Balanced)
    (hle : t.height ≤ t'.height) (hlt : t'.height ≤ t.height + 1) :
    c.insertedOn s x b u (t', decide (t.height < t'.height), o) = .ok (sided s t' x b' u,
      decide ((sided s t x b u).height < (sided s t' x b' u).height), o) := by
  obtain ⟨-, -, hb⟩ := balanced_sided.mp hn
  obtain ⟨-, -, hb'⟩ := balanced_sided.mp hn'
  rw [height_sided, height_sided]
  by_cases hg : t.height < t'.height
  · obtain ⟨rfl, hb, rfl⟩ | ⟨rfl, hb, rfl⟩ : (b = -side s ∧ u.height = t.height + 1 ∧ b' = 0)
        ∨ b = 0 ∧ u.height = t.height ∧ b' = side s := by
      omega
    all_goals
      cases s <;>
      simp [hg, insertedOn, leftInserted, rightInserted, leftGrown, rightGrown, sided, side] <;>
      omega
  · obtain rfl : b = b' := by omega
    have hht : t'.height = t.height := by omega
    cases s <;> simp [insertedOn, leftInserted, rightInserted, sided, hht]

end

/-- **`avl_insert` keeps the tree balanced and puts the node where a search for it ends.** -/
theorem avlInsert_spec {dup : α → Except Abort (α × ω)} (fresh : ω) (hb : t.Balanced)
    (hcut : Cut (c.cmp (c.key n)) t.toList)
    (hdup : ∀ x ∈ t.toList, c.cmp (c.key n) x = .eq → ∃ q, dup x = .ok q) :
    ∃ p o vs, c.avlInsert n dup fresh t = .ok (p.1, p.2, o)
      ∧ Inserted t vs p ∧ c.Placed n dup fresh t.toList vs o := by
  have hone : c.Placed n dup fresh [] [n] fresh := .fresh (l := []) (r := []) (by simp) (by simp)
  induction t with
  | nil =>
    exact ⟨(leaf n, true), _, _, rfl,
      ⟨⟨⟨trivial, trivial, rfl, by simp⟩, rfl, rfl⟩, by simp, by simp⟩, hone⟩
  | node l x b r ihl ihr =>
    obtain ⟨hl, hr, -⟩ := id hb
    rw [toList_node] at hcut hdup ⊢
    cases hx : c.cmp (c.key n) x with
    | lt =>
      obtain ⟨p, o, vs, hins, hok, hpl⟩ :=
        ihl hl hcut.left fun y hy => hdup y (mem_append_left _ hy)
      obtain ⟨q, hq, hok'⟩ := c.inserted_spec true hb o hok
      refine ⟨q, o, _, (c.avlInsert_sided true hb fresh hx).trans ?_, hok',
        hpl.append_right (hcut.lt_of_lt hx)⟩
      rw [hins, ok_bind, hq]
    | gt =>
      have hsplit : ∀ vs : List α, l.toList ++ x :: vs = (l.toList ++ [x]) ++ vs := by simp
      obtain ⟨p, o, vs, hins, hok, hpl⟩ :=
        ihr hr hcut.right fun y hy => hdup y (by simp [hy])
      obtain ⟨q, hq, hok'⟩ := c.inserted_spec false hb o hok
      rw [hsplit r.toList]
      refine ⟨q, o, l.toList ++ x :: vs, (c.avlInsert_sided false hb fresh hx).trans ?_, hok',
        hsplit vs ▸ hpl.append_left (hcut.gt_of_gt hx)⟩
      rw [hins, ok_bind, hq]
    | eq =>
      obtain ⟨q, hq⟩ := hdup x (by simp) hx
      exact ⟨(node l q.1 b r, false), q.2, _, by simp [avlInsert, hx, hq],
        ⟨⟨hb, rfl, rfl⟩, nofun, nofun⟩,
        .dup (hcut.gt_of_ne_lt (by simp [hx])) (hcut.lt_of_ne_gt (by simp [hx])) hx hq⟩

/-! ## Deletion -/

theorem rightmost_spec (h : t ≠ nil) : ∃ m vs, rightmost t = .ok m ∧ t.toList = vs ++ [m] := by
  induction t with
  | nil => exact absurd rfl h
  | node l x b r _ ih =>
    obtain _ | ⟨rl, y, br, rr⟩ := r
    · exact ⟨x, l.toList, rfl, rfl⟩
    · obtain ⟨m, vs, hm, hvs⟩ := ih nofun
      exact ⟨m, l.toList ++ x :: vs, hm, by rw [toList_node, hvs]; simp⟩

theorem leftmost_spec (h : t ≠ nil) : ∃ m vs, leftmost t = .ok m ∧ t.toList = m :: vs := by
  induction t with
  | nil => exact absurd rfl h
  | node l x b r ih _ =>
    obtain _ | ⟨ll, y, bl, lr⟩ := l
    · exact ⟨x, r.toList, rfl, rfl⟩
    · obtain ⟨m, vs, hm, hvs⟩ := ih nofun
      exact ⟨m, vs ++ x :: r.toList, hm, by rw [toList_node, hvs]; simp⟩

/-- The comparison the code makes is an order of keys, and a node pointer equals itself. -/
structure Orders (ord : κ → κ → Ordering) : Prop where
  cmp_eq : ∀ k x, c.cmp k x = ord k (c.key x)
  same_self : ∀ x, c.same x x

section

variable {c} {ord : κ → κ → Ordering} [Std.TransCmp ord]

/-- A search cuts the values of a search tree at one point. -/
theorem Orders.cut (ho : c.Orders ord) {l : List α} (h : Ordered ord c.key l) (k : κ) :
    Cut (c.cmp k) l := by
  have hcmp : c.cmp k = fun x => ord k (c.key x) := funext (ho.cmp_eq k)
  exact hcmp ▸ h.cut k

/-- What `avl_remove` is to do with a tree and one of its nodes. -/
def Removes (t : AvlTree α) (n : α) (res : Except Abort (AvlTree α × Bool)) : Prop :=
  ∃ p l r, res = .ok p ∧ t.toList = l ++ n :: r ∧ Shrunk (l ++ r) t.height p

theorem avlRemoveroot_spec (ho : c.Orders ord) (hb : (node l x b r).Balanced)
    (hord : Ordered ord c.key (l.toList ++ x :: r.toList))
    {inLeft inRight : α → Except Abort (AvlTree α × Bool)}
    (hleft : ∀ m ∈ l.toList, Removes l m (inLeft m))
    (hright : ∀ m ∈ r.toList, Removes r m (inRight m)) :
    Removes (node l x b r) x (c.avlRemoveroot inLeft inRight l x b r) := by
  obtain ⟨hol, hor, hlr⟩ := pairwise_append.mp hord
  obtain ⟨hxr, hor⟩ := pairwise_cons.mp hor
  suffices ∃ p, c.avlRemoveroot inLeft inRight l x b r = .ok p
      ∧ Shrunk (l.toList ++ r.toList) (node l x b r).height p by
    obtain ⟨p, hp, hsh⟩ := this
    exact ⟨p, l.toList, r.toList, hp, rfl, hsh⟩
  by_cases hlnil : l = nil
  · subst hlnil
    exact ⟨(r, true), rfl, hb.2.1, rfl, by simp⟩
  by_cases hrnil : r = nil
  · subst hrnil
    exact ⟨(l, true), by simp [avlRemoveroot, isNil_iff, hlnil], hb.1, by simp, by simp⟩
  by_cases hb0 : b < 0
  · obtain ⟨m, vs, hm, hvs⟩ := rightmost_spec hlnil
    have hml : m ∈ l.toList := by simp [hvs]
    have hmx : c.cmp (c.key m) x = .lt :=
      (ho.cmp_eq _ _).trans (hlr m hml x mem_cons_self)
    obtain ⟨p, u, v, hp, hsplit, hsh⟩ := hleft m hml
    obtain ⟨q, hq, hsh'⟩ := c.replaceRoot_spec true hb m (by simp [side]; omega) hsh
    obtain ⟨rfl, rfl⟩ := Ordered.append_cons_inj (hsplit ▸ hol) (hsplit.symm.trans hvs)
    refine ⟨q, ?_, by simpa [hvs, beside, sided] using hsh'⟩
    simpa [avlRemoveroot, isNil_iff, hlnil, hrnil, hb0, hm, hmx, hp, removedOn] using hq
  · obtain ⟨m, vs, hm, hvs⟩ := leftmost_spec hrnil
    have hmr : m ∈ r.toList := by simp [hvs]
    have hmx : c.cmp (c.key m) x = .gt :=
      (ho.cmp_eq _ _).trans (Std.OrientedCmp.gt_of_lt (hxr m hmr))
    obtain ⟨p, u, v, hp, hsplit, hsh⟩ := hright m hmr
    obtain ⟨q, hq, hsh'⟩ := c.replaceRoot_spec false hb m (by simp [side]; omega) hsh
    obtain ⟨rfl, rfl⟩ := Ordered.append_cons_inj (hsplit ▸ hor)
      (hsplit.symm.trans (hvs.trans (nil_append _).symm))
    refine ⟨q, ?_, by simpa [hvs, beside, sided] using hsh'⟩
    simpa [avlRemoveroot, isNil_iff, hlnil, hrnil, hb0, hm, hmx, hp, removedOn] using hq

/-- **`avl_remove` keeps the tree balanced and takes out exactly the given node**, and none of its
assertions fails. -/
theorem avlRemove_spec (ho : c.Orders ord) (hb : t.Balanced) (hord : Ordered ord c.key t.toList)
    (hn : n ∈ t.toList) : Removes t n (c.avlRemove t n) := by
  induction t generalizing n with
  | nil => simp at hn
  | node l x b r ihl ihr =>
    have hcut := ho.cut hord (c.key n)
    have hself : c.cmp (c.key n) n = .eq := (ho.cmp_eq _ _).trans Std.ReflCmp.compare_self
    obtain ⟨hl, hr, -⟩ := id hb
    obtain ⟨hol, hor, -⟩ := pairwise_append.mp hord
    rw [toList_node] at hcut hn
    simp only [avlRemove]
    cases hx : c.cmp (c.key n) x with
    | lt =>
      have hnl : n ∈ l.toList := by
        refine (mem_append.mp hn).resolve_right fun hn => ?_
        have hlt := hcut.lt_of_lt hx n hn
        rw [hself] at hlt
        cases hlt
      obtain ⟨p, u, v, hp, hsplit, hsh⟩ := ihl hl hol hnl
      obtain ⟨q, hq, hsh'⟩ := c.removed_spec true hb hsh
      obtain _ | ⟨ll, y, bl, lr⟩ := l
      · simp at hnl
      · exact ⟨q, u, v ++ x :: r.toList, by simpa [AvlTree.isNil, hp, removedOn] using hq,
          by simp [hsplit], by simpa [beside, sided] using hsh'⟩
    | gt =>
      have hnr : n ∈ r.toList := by
        rw [append_cons] at hn
        refine (mem_append.mp hn).resolve_left fun hn => ?_
        have hgt := hcut.gt_of_gt hx n hn
        rw [hself] at hgt
        cases hgt
      obtain ⟨p, u, v, hp, hsplit, hsh⟩ := ihr hr hor.of_cons hnr
      obtain ⟨q, hq, hsh'⟩ := c.removed_spec false hb hsh
      obtain _ | ⟨rl, y, br, rr⟩ := r
      · simp at hnr
      · exact ⟨q, l.toList ++ x :: u, v, by simpa [AvlTree.isNil, hp, removedOn] using hq,
          by simp [hsplit], by simpa [beside, sided] using hsh'⟩
    | eq =>
      obtain rfl : n = x := hord.eq_of_eq hn (by simp) (ho.cmp_eq _ _ ▸ hx)
      simp only [ho.same_self, if_true]
      exact avlRemoveroot_spec ho hb hord (fun m hm => ihl hl hol hm)
        fun m hm => ihr hr hor.of_cons hm

/-- **A search finds exactly the node with an equal key.** -/
theorem avlFind_eq_some_iff (ho : c.Orders ord) (hord : Ordered ord c.key t.toList) {k : κ} :
    c.avlFind k t = some x ↔ x ∈ t.toList ∧ c.cmp k x = .eq := by
  induction t with
  | nil => simp [avlFind]
  | node l y b r ihl ihr =>
    have hcut := ho.cut hord k
    obtain ⟨hol, hor, -⟩ := pairwise_append.mp hord
    rw [toList_node] at hcut ⊢
    simp only [avlFind]
    cases hy : c.cmp k y with
    | lt =>
      refine (ihl hol).trans (and_congr_left fun hx => ?_)
      refine ⟨fun hmem => mem_append_left _ hmem, fun hmem => ?_⟩
      refine (mem_append.mp hmem).resolve_right fun hmem => ?_
      rw [hcut.lt_of_lt hy x hmem] at hx
      cases hx
    | gt =>
      refine (ihr hor.of_cons).trans (and_congr_left fun hx => ?_)
      rw [append_cons]
      refine ⟨fun hmem => mem_append_right _ hmem, fun hmem => ?_⟩
      refine (mem_append.mp hmem).resolve_left fun hmem => ?_
      rw [hcut.gt_of_gt hy x hmem] at hx
      cases hx
    | eq =>
      constructor
      · intro h
        cases h
        exact ⟨by simp, hy⟩
      · rintro ⟨hmem, hx⟩
        have hkx : ord k (c.key x) = .eq := ho.cmp_eq k x ▸ hx
        have hky : ord k (c.key y) = .eq := ho.cmp_eq k y ▸ hy
        have hyx : ord (c.key y) (c.key x) = .eq := (Std.TransCmp.congr_left hky).symm.trans hkx
        rw [hord.eq_of_eq (by simp) hmem hyx]

end

/-! ## Growing a given tree -/

section Grow

variable {c} {ord : κ → κ → Ordering} [Std.TransCmp ord]

/-- **A new leaf between balanced trees is put there without a swing.** -/
theorem avlInsert_addLeaf (ho : c.Orders ord) (dup : α → Except Abort (α × ω)) (fresh : ω)
    {t' : AvlTree α} (h : AvlTree.AddLeaf n t t') (hb : t.Balanced) (hb' : t'.Balanced)
    (hord : Ordered ord c.key t'.toList) :
    c.avlInsert n dup fresh t = .ok (t', decide (t.height < t'.height), fresh) := by
  induction h with
  | here => rfl
  | @left l l' x b b' r hadd ih =>
    obtain ⟨hol, -, hlr⟩ := pairwise_append.mp hord
    obtain ⟨u, v, -, hn⟩ := hadd.exists_toList
    have hx : c.cmp (c.key n) x = .lt := (ho.cmp_eq _ _).trans (hlr n (by simp [hn]) x (by simp))
    refine (c.avlInsert_sided true hb fresh hx).trans ?_
    rw [ih hb.1 hb'.1 hol, ok_bind]
    exact c.inserted_eq true hb fresh hb' hadd.height_le hadd.height_le_succ
  | @right l x b b' r r' hadd ih =>
    obtain ⟨-, hor, hlr⟩ := pairwise_append.mp hord
    obtain ⟨hxr, hor⟩ := pairwise_cons.mp hor
    obtain ⟨u, v, -, hn⟩ := hadd.exists_toList
    have hx : c.cmp (c.key n) x = .gt :=
      (ho.cmp_eq _ _).trans (Std.OrientedCmp.gt_of_lt (hxr n (by simp [hn])))
    refine (c.avlInsert_sided false hb fresh hx).trans ?_
    rw [ih hb.2.1 hb'.2.1 hor, ok_bind]
    exact c.inserted_eq false hb fresh hb' hadd.height_le hadd.height_le_succ

end Grow

end AvlCode

end Valgrind
