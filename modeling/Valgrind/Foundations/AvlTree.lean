import Mathlib.Tactic

/-!
# Foundations/AvlTree — binary trees with balance fields

A node stores, beside its value, a *balance*.  A tree is **balanced** when each balance is the
height of the right subtree minus that of the left one, and none exceeds one in absolute value.
Such a tree of height `h` has at least `fib (h + 2) - 1` nodes (`Balanced.fib_le`), and no more can
be said: `fibTree` meets the bound.

An in-order walk with a stack keeps the ancestors it still has to return to, that is, one entry for
each left turn: it needs `leftDepth` entries.
-/

/-- A binary tree; each node carries a balance. -/
inductive AvlTree (α : Type) where
  | nil
  | node (left : AvlTree α) (val : α) (balance : ℤ) (right : AvlTree α)
deriving DecidableEq

namespace AvlTree

open Nat List

variable {α β : Type} {t l r : AvlTree α} {x : α}

/-- The values from left to right. -/
def toList : AvlTree α → List α
  | nil => []
  | node l x _ r => l.toList ++ x :: r.toList

/-- The number of nodes on a longest path from the root. -/
def height : AvlTree α → ℕ
  | nil => 0
  | node l _ _ r => max l.height r.height + 1

/-- Whether the tree is empty. -/
def isNil : AvlTree α → Bool
  | nil => true
  | node .. => false

/-- The tree with a function applied to its values. -/
def map (f : α → β) : AvlTree α → AvlTree β
  | nil => nil
  | node l x b r => node (map f l) (f x) b (map f r)

/-- The value at the root. -/
def root? : AvlTree α → Option α
  | nil => none
  | node _ x _ _ => some x

/-- A tree of one node. -/
def leaf (x : α) : AvlTree α := node nil x 0 nil

/-- The largest number of nodes on a path from the root that are left by their left edge, the last
one counted too. -/
def leftDepth : AvlTree α → ℕ
  | nil => 0
  | node l _ _ r => max (l.leftDepth + 1) r.leftDepth

/-- Every balance field is the difference of the heights and lies between `-1` and `1`. -/
def Balanced : AvlTree α → Prop
  | nil => True
  | node l _ b r =>
    l.Balanced ∧ r.Balanced ∧ b = (r.height : ℤ) - l.height ∧ -1 ≤ b ∧ b ≤ 1

@[simp] theorem toList_nil : (nil : AvlTree α).toList = [] := rfl

@[simp] theorem toList_node (l : AvlTree α) (x : α) (b : ℤ) (r : AvlTree α) :
    (node l x b r).toList = l.toList ++ x :: r.toList := rfl

@[simp] theorem height_nil : (nil : AvlTree α).height = 0 := rfl

@[simp] theorem height_node (l : AvlTree α) (x : α) (b : ℤ) (r : AvlTree α) :
    (node l x b r).height = max l.height r.height + 1 := rfl

@[simp] theorem toList_map (f : α → β) (t : AvlTree α) : (t.map f).toList = t.toList.map f := by
  induction t with
  | nil => rfl
  | node l x b r ihl ihr => simp [map, ihl, ihr]

@[simp] theorem height_map (f : α → β) (t : AvlTree α) : (t.map f).height = t.height := by
  induction t with
  | nil => rfl
  | node l x b r ihl ihr => simp [map, ihl, ihr]

@[simp] theorem leftDepth_map (f : α → β) (t : AvlTree α) : (t.map f).leftDepth = t.leftDepth := by
  induction t with
  | nil => rfl
  | node l x b r ihl ihr => simp [map, leftDepth, ihl, ihr]

theorem Balanced.map (h : t.Balanced) (f : α → β) : (t.map f).Balanced := by
  induction t with
  | nil => trivial
  | node l x b r ihl ihr =>
    obtain ⟨hl, hr, hb⟩ := h
    refine ⟨ihl hl, ihr hr, ?_⟩
    rwa [height_map, height_map]

theorem isNil_iff : t.isNil ↔ t = nil := by
  cases t with
  | nil => exact iff_of_true rfl rfl
  | node l x b r => exact iff_of_false nofun nofun

/-! ## The two sides of a node -/

section Sides

variable {u : AvlTree α} {b : ℤ} {s : Bool}

/-- A node seen from one of its sides: `t` stands there, and `u` on the other. -/
def sided (left : Bool) (t : AvlTree α) (x : α) (b : ℤ) (u : AvlTree α) : AvlTree α :=
  bif left then node t x b u else node u x b t

/-- The values of such a node. -/
def beside (left : Bool) (vs : List α) (x : α) (ws : List α) : List α :=
  bif left then vs ++ x :: ws else ws ++ x :: vs

/-- The balance of a node whose subtree on that side is the higher one. -/
def side (left : Bool) : ℤ := bif left then -1 else 1

theorem toList_sided : (sided s t x b u).toList = beside s t.toList x u.toList := by
  cases s <;> rfl

theorem height_sided : (sided s t x b u).height = max t.height u.height + 1 := by
  cases s
  · exact congrArg (· + 1) (max_comm u.height t.height)
  · rfl

/-- What balance means, seen from one side. -/
theorem balanced_sided : (sided s t x b u).Balanced ↔ t.Balanced ∧ u.Balanced
    ∧ (b = -side s ∧ u.height = t.height + 1 ∨ b = 0 ∧ u.height = t.height
      ∨ b = side s ∧ t.height = u.height + 1) := by
  cases s <;>
  simp only [sided, side, cond_true, cond_false, Balanced] <;>
  constructor <;>
  · rintro ⟨h₁, h₂, hb⟩
    exact ⟨by assumption, by assumption, by omega⟩

theorem side_ne_zero (s : Bool) : side s ≠ 0 := by
  cases s <;> decide

/-- A tree of positive height is a node. -/
theorem exists_sided (s : Bool) (h : 0 < t.height) : ∃ v y b w, t = sided s v y b w := by
  cases t with
  | nil => simp at h
  | node l y b r =>
    cases s
    · exact ⟨r, y, b, l, rfl⟩
    · exact ⟨l, y, b, r, rfl⟩

end Sides

/-! ## How many nodes a height takes -/

/-- **A balanced tree of height `h` has at least `fib (h + 2) - 1` nodes.** -/
theorem Balanced.fib_le (h : t.Balanced) : fib (t.height + 2) ≤ t.toList.length + 1 := by
  induction t with
  | nil => simp
  | node l x b r ihl ihr =>
    obtain ⟨hl, hr, hb, hlo, hhi⟩ := h
    have hfl := ihl hl
    have hfr := ihr hr
    have hlen : (node l x b r).toList.length = l.toList.length + r.toList.length + 1 := by
      simp only [toList_node, length_append, length_cons]
      omega
    rw [height_node, hlen]
    -- the higher subtree has height `m`, the other at least `m - 1`
    generalize hm : max l.height r.height = m
    have hmono : fib (m + 1) + fib (m + 2)
        ≤ fib (l.height + 2) + fib (r.height + 2) := by
      rcases lt_or_ge l.height r.height with hlt | hge
      · have hmr : m = r.height := by omega
        rw [hmr]
        exact Nat.add_le_add_right (Nat.fib_mono (by omega)) _
      · have hml : m = l.height := by omega
        rw [hml, add_comm (fib (l.height + 1))]
        exact Nat.add_le_add_left (Nat.fib_mono (by omega)) _
    have hfib : fib (m + 1 + 2) = fib (m + 1) + fib (m + 2) := fib_add_two
    omega

theorem leftDepth_le_height (t : AvlTree α) : t.leftDepth ≤ t.height := by
  induction t with
  | nil => exact le_rfl
  | node l x b r ihl ihr => simp only [leftDepth, height]; omega

/-! ## Growing a tree leaf by leaf -/

/-- The node over two subtrees, with the balance their heights give. -/
def join (l : AvlTree α) (x : α) (r : AvlTree α) : AvlTree α :=
  node l x ((r.height : ℤ) - l.height) r

@[simp] theorem height_join (l : AvlTree α) (x : α) (r : AvlTree α) :
    (join l x r).height = max l.height r.height + 1 := rfl

/-- Balanced subtrees of nearly the same height make a balanced tree. -/
theorem balanced_join (hl : l.Balanced) (hr : r.Balanced) (hlr : l.height ≤ r.height + 1)
    (hrl : r.height ≤ l.height + 1) : (join l x r).Balanced :=
  ⟨hl, hr, rfl, by omega, by omega⟩

/-- Every balanced tree is such a node. -/
theorem Balanced.eq_join {b : ℤ} (h : (node l x b r).Balanced) : node l x b r = join l x r := by
  rw [join, h.2.2.1]

/-- The second tree is the first with `a` as a new leaf; the balances on the way may differ. -/
inductive AddLeaf (a : α) : AvlTree α → AvlTree α → Prop
  | here : AddLeaf a nil (leaf a)
  | left {l l' : AvlTree α} {x : α} {b b' : ℤ} {r : AvlTree α} :
    AddLeaf a l l' → AddLeaf a (node l x b r) (node l' x b' r)
  | right {l : AvlTree α} {x : α} {b b' : ℤ} {r r' : AvlTree α} :
    AddLeaf a r r' → AddLeaf a (node l x b r) (node l x b' r')

namespace AddLeaf

variable {a : α} {t t' : AvlTree α}

theorem height_le (h : AddLeaf a t t') : t.height ≤ t'.height := by
  induction h with
  | here => exact zero_le
  | left _ ih | right _ ih => simp only [height_node]; omega

theorem height_le_succ (h : AddLeaf a t t') : t'.height ≤ t.height + 1 := by
  induction h with
  | here => exact le_rfl
  | left _ ih | right _ ih => simp only [height_node]; omega

/-- The new leaf stands somewhere among the old values. -/
theorem exists_toList (h : AddLeaf a t t') :
    ∃ l r, t.toList = l ++ r ∧ t'.toList = l ++ a :: r := by
  induction h with
  | here => exact ⟨[], [], rfl, rfl⟩
  | @left l l' x b b' r _ ih =>
    obtain ⟨u, v, h, h'⟩ := ih
    exact ⟨u, v ++ x :: r.toList, by simp [h], by simp [h']⟩
  | @right l x b b' r r' _ ih =>
    obtain ⟨u, v, h, h'⟩ := ih
    exact ⟨l.toList ++ x :: u, v, by simp [h], by simp [h']⟩

end AddLeaf

/-- Adding the leaves of the list in turn leads from the first tree to the second, through balanced
trees only. -/
inductive Grows : AvlTree α → List α → AvlTree α → Prop
  | refl {t : AvlTree α} : t.Balanced → Grows t [] t
  | step {t t' t'' : AvlTree α} {a : α} {as : List α} :
    t.Balanced → AddLeaf a t t' → Grows t' as t'' → Grows t (a :: as) t''

namespace Grows

variable {t t' t'' : AvlTree α} {as bs : List α}

section

variable (h : Grows t as t')
include h

theorem height_le : t.height ≤ t'.height := by
  induction h with
  | refl _ => exact le_rfl
  | step _ ha _ ih => exact ha.height_le.trans ih

theorem trans (h' : Grows t' bs t'') : Grows t (as ++ bs) t'' := by
  induction h with
  | refl _ => exact h'
  | step hb ha _ ih => exact .step hb ha (ih h')

/-- Growing keeps the values in order. -/
theorem sublist : t.toList.Sublist t'.toList := by
  induction h with
  | refl _ => exact .refl _
  | @step t t' t'' a as _ ha _ ih =>
    obtain ⟨l, r, hl, hr⟩ := ha.exists_toList
    rw [hl]
    exact ((sublist_cons_self a r).append_left l).trans (hr ▸ ih)

/-- The values of the final tree are those of the first and the new leaves. -/
theorem perm : t'.toList.Perm (as ++ t.toList) := by
  induction h with
  | refl _ => exact .refl _
  | @step t t' t'' a as _ ha _ ih =>
    obtain ⟨l, r, hl, hr⟩ := ha.exists_toList
    refine ih.trans ?_
    rw [hr, hl]
    calc as ++ (l ++ a :: r)
        |>.Perm (as ++ a :: (l ++ r)) := List.Perm.append_left _ perm_middle
      _ |>.Perm (a :: (as ++ (l ++ r))) := perm_middle

/-- A subtree may grow as long as the other one keeps the node balanced at both ends of it. -/
theorem join_left (x : α) (hr : r.Balanced) (hlo : r.height ≤ t.height + 1)
    (hhi : t'.height ≤ r.height + 1) : Grows (join t x r) as (join t' x r) := by
  induction h with
  | refl hb => exact .refl (balanced_join hb hr hhi hlo)
  | step hb ha hg ih =>
    have hle := hg.height_le
    have hle' := ha.height_le
    exact .step (balanced_join hb hr (by omega) hlo) ha.left (ih (by omega) hhi)

theorem join_right (x : α) (hl : l.Balanced) (hlo : l.height ≤ t.height + 1)
    (hhi : t'.height ≤ l.height + 1) : Grows (join l x t) as (join l x t') := by
  induction h with
  | refl hb => exact .refl (balanced_join hl hb hlo hhi)
  | step hb ha hg ih =>
    have hle := hg.height_le
    have hle' := ha.height_le
    exact .step (balanced_join hl hb hlo (by omega)) ha.right (ih (by omega) hhi)

end

end Grows

/-- The first `k` levels of a tree. -/
def trunc : ℕ → AvlTree α → AvlTree α
  | 0, _ => nil
  | _ + 1, nil => nil
  | k + 1, node l x _ r => join (trunc k l) x (trunc k r)

theorem height_trunc (k : ℕ) (t : AvlTree α) : (trunc k t).height = min k t.height := by
  induction k generalizing t with
  | zero => simp [trunc]
  | succ k ih =>
    cases t with
    | nil => simp [trunc]
    | node l x b r => simp only [trunc, height_join, ih, height_node]; omega

theorem balanced_trunc (h : t.Balanced) (k : ℕ) : (trunc k t).Balanced := by
  induction k generalizing t with
  | zero => exact trivial
  | succ k ih =>
    cases t with
    | nil => exact trivial
    | node l x b r =>
      obtain ⟨hl, hr, hb, hlo, hhi⟩ := h
      refine balanced_join (ih hl) (ih hr) ?_ ?_ <;> simp only [height_trunc] <;> omega

/-- All levels make the whole tree. -/
theorem trunc_height (h : t.Balanced) : ∀ k, t.height ≤ k → trunc k t = t := by
  intro k hk
  induction k generalizing t with
  | zero =>
    cases t with
    | nil => rfl
    | node l x b r => simp at hk
  | succ k ih =>
    cases t with
    | nil => rfl
    | node l x b r =>
      rw [height_node] at hk
      rw [trunc, ih h.1 (by omega), ih h.2.1 (by omega), ← h.eq_join]

/-- **Adding a level leaf by leaf keeps a tree balanced throughout**, provided the whole tree is
balanced: at each node the two subtrees differ by at most one level while one of them grows. -/
theorem exists_grows_level (h : t.Balanced) (k : ℕ) :
    ∃ as, Grows (trunc k t) as (trunc (k + 1) t) := by
  induction k generalizing t with
  | zero =>
    cases t with
    | nil => exact ⟨[], .refl trivial⟩
    | node l x b r => exact ⟨[x], .step trivial .here (.refl ⟨trivial, trivial, rfl, by simp⟩)⟩
  | succ k ih =>
    cases t with
    | nil => exact ⟨[], .refl trivial⟩
    | node l x b r =>
      obtain ⟨hl, hr, hb, hlo, hhi⟩ := h
      obtain ⟨as, has⟩ := ih hl
      obtain ⟨bs, hbs⟩ := ih hr
      refine ⟨as ++ bs, (has.join_left x (balanced_trunc hr k) ?_ ?_).trans
        (hbs.join_right x (balanced_trunc hl (k + 1)) ?_ ?_)⟩ <;>
      simp only [height_trunc] <;> omega

/-- **Every balanced tree can be grown leaf by leaf from the empty one.** -/
theorem Balanced.exists_grows (h : t.Balanced) : ∃ as, Grows nil as t := by
  have hall : ∀ k, ∃ as, Grows nil as (trunc k t) := by
    intro k
    induction k with
    | zero => exact ⟨[], .refl trivial⟩
    | succ k ih =>
      obtain ⟨as, has⟩ := ih
      obtain ⟨bs, hbs⟩ := exists_grows_level h k
      exact ⟨as ++ bs, has.trans hbs⟩
  obtain ⟨as, has⟩ := hall t.height
  rw [trunc_height h _ le_rfl] at has
  exact ⟨as, has⟩

/-! ## The sparsest balanced trees -/

/-- The leftward Fibonacci tree of height `h` over the numbers from `s` on: every left subtree is
one higher than its sibling. -/
def fibTree : ℕ → ℕ → AvlTree ℕ
  | 0, _ => nil
  | 1, s => leaf s
  | h + 2, s =>
    node (fibTree (h + 1) s) (s + (fib (h + 3) - 1)) (-1)
      (fibTree h (s + fib (h + 3)))

theorem height_fibTree : ∀ h s, (fibTree h s).height = h
  | 0, _ => rfl
  | 1, _ => rfl
  | h + 2, s => by
    rw [fibTree, height_node, height_fibTree (h + 1), height_fibTree h]
    omega

theorem leftDepth_fibTree : ∀ h s, (fibTree h s).leftDepth = h
  | 0, _ => rfl
  | 1, _ => rfl
  | h + 2, s => by
    rw [fibTree, leftDepth, leftDepth_fibTree (h + 1), leftDepth_fibTree h]
    omega

theorem balanced_fibTree : ∀ h s, (fibTree h s).Balanced
  | 0, _ => trivial
  | 1, _ => ⟨trivial, trivial, rfl, by simp⟩
  | h + 2, s => by
    rw [fibTree]
    refine ⟨balanced_fibTree (h + 1) _, balanced_fibTree h _, ?_, by omega, by omega⟩
    rw [height_fibTree, height_fibTree]
    push_cast
    ring

/-- It holds consecutive numbers, as few as the height allows. -/
theorem toList_fibTree : ∀ h s, (fibTree h s).toList = List.range' s (fib (h + 2) - 1)
  | 0, _ => rfl
  | 1, _ => rfl
  | h + 2, s => by
    have hpos : 0 < fib (h + 3) := fib_pos.mpr (by omega)
    have hpos' : 0 < fib (h + 2) := fib_pos.mpr (by omega)
    have hsum : fib (h + 2 + 2) = fib (h + 2) + fib (h + 3) := fib_add_two
    rw [fibTree, toList_node, toList_fibTree (h + 1), toList_fibTree h]
    have hcons : (s + (fib (h + 3) - 1)) :: range' (s + fib (h + 3))
        (fib (h + 2) - 1) = range' (s + (fib (h + 3) - 1)) (fib (h + 2)) := by
      obtain ⟨n, hn⟩ : ∃ n, fib (h + 2) = n + 1 := ⟨fib (h + 2) - 1, by omega⟩
      rw [hn, range'_succ, Nat.add_sub_cancel]
      congr 2
      omega
    rw [hcons, show s + (fib (h + 3) - 1) = s + 1 * (fib (h + 1 + 2) - 1) by
      simp, range'_append]
    congr 1
    have : h + 1 + 2 = h + 3 := rfl
    rw [this]
    omega

end AvlTree
