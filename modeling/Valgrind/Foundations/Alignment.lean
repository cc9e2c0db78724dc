import Mathlib.Tactic

/-!
# Foundations/Alignment — two sorted lists, walked with two cursors

Two lists that increase strictly by a key are walked in step: at each turn the cursor with the
smaller key moves on, or both do if the keys are equal.  `align` is the list of what is met on the
way.  A function computed along such a walk is judged by the **members** of the alignment
(`mem_align`), which come in the order of their keys (`pairwise_align`).
-/

namespace Alignment

open List

variable {α κ : Type} [LinearOrder κ] {key : α → κ} {as bs : List α} {a b : α} {k : κ}

/-- What is met at one turn: an element of one list only, or one of each with the same key. -/
inductive Turn (α : Type) where
  | left (a : α)
  | right (b : α)
  | both (a b : α)

/-- The key met. -/
def Turn.keyBy (key : α → κ) : Turn α → κ
  | .left a | .right a | .both a _ => key a

/-- A list increases strictly by a key. -/
def Increasing (key : α → κ) (l : List α) : Prop := l.Pairwise fun a b => key a < key b

/-- Walk two lists in step. -/
def align (key : α → κ) : List α → List α → List (Turn α)
  | [], [] => []
  | [], b :: bs => .right b :: align key [] bs
  | a :: as, [] => .left a :: align key as []
  | a :: as, b :: bs =>
    if key a < key b then .left a :: align key as (b :: bs)
    else if key a > key b then .right b :: align key (a :: as) bs
    else .both a b :: align key as bs
termination_by as bs => as.length + bs.length

/-- **A walk folds over the alignment** of its lists, if it takes the turns one by one. -/
theorem walk_eq_foldr {β : Type} (key : α → κ) (walk : List α → List α → β)
    (turn : Turn α → β → β) (right : ∀ b bs, walk [] (b :: bs) = turn (.right b) (walk [] bs))
    (left : ∀ a as, walk (a :: as) [] = turn (.left a) (walk as []))
    (lt : ∀ a as b bs, key a < key b →
      walk (a :: as) (b :: bs) = turn (.left a) (walk as (b :: bs)))
    (gt : ∀ a as b bs, key b < key a →
      walk (a :: as) (b :: bs) = turn (.right b) (walk (a :: as) bs))
    (eq : ∀ a as b bs, key a = key b → walk (a :: as) (b :: bs) = turn (.both a b) (walk as bs))
    (as bs : List α) : walk as bs = (align key as bs).foldr turn (walk [] []) := by
  fun_induction align key as bs with
  | case1 => rfl
  | case2 b bs ih => rw [right, ih, foldr_cons]
  | case3 a as ih => rw [left, ih, foldr_cons]
  | case4 a as b bs hlt ih => rw [lt _ _ _ _ hlt, ih, foldr_cons]
  | case5 a as b bs hlt hgt ih => rw [gt _ _ _ _ hgt, ih, foldr_cons]
  | case6 a as b bs hlt hgt ih =>
    rw [eq _ _ _ _ (le_antisymm (not_lt.mp hgt) (not_lt.mp hlt)), ih, foldr_cons]

/-- Both lists move on. -/
def Turn.isBoth : Turn α → Bool
  | .both _ _ => true
  | .left _ | .right _ => false

/-- What is met twice is counted once. -/
theorem length_add_countP_align (key : α → κ) (as bs : List α) :
    (align key as bs).length + (align key as bs).countP Turn.isBoth = as.length + bs.length := by
  fun_induction align key as bs <;> simp_all [Turn.isBoth, countP_cons] <;> omega

/-- What the members of an alignment are. -/
def Meets (key : α → κ) (as bs : List α) : Turn α → Prop
  | .left a => a ∈ as ∧ ∀ b ∈ bs, key b ≠ key a
  | .right b => b ∈ bs ∧ ∀ a ∈ as, key a ≠ key b
  | .both a b => a ∈ as ∧ b ∈ bs ∧ key a = key b

theorem Increasing.head_lt (h : Increasing key (a :: as)) :
    ∀ x ∈ as, key a < key x := (pairwise_cons.mp h).1

theorem Increasing.tail (h : Increasing key (a :: as)) :
    Increasing key as := (pairwise_cons.mp h).2

/-- Every element behind a larger head is larger. -/
theorem Increasing.lt_all (h : Increasing key (a :: as)) (hk : k < key a) :
    ∀ x ∈ a :: as, k < key x :=
  forall_mem_cons.mpr ⟨hk, fun x hx => hk.trans (h.head_lt x hx)⟩

theorem Increasing.dropWhile (h : Increasing key as) (p : α → Bool) :
    Increasing key (as.dropWhile p) := List.Pairwise.sublist (dropWhile_sublist p) h

section

variable (has : Increasing key as) (hbs : Increasing key bs)
include has hbs

/-- **The members of an alignment** are the elements of one list whose keys the other does not
have, and the pairs with the same key. -/
theorem mem_align (x : Turn α) : x ∈ align key as bs ↔ Meets key as bs x := by
  fun_induction align key as bs with
  | case1 => cases x <;> simp [Meets]
  | case2 b bs ih =>
    rw [mem_cons, ih has hbs.tail]
    cases x <;> simp [Meets]
  | case3 a as ih =>
    rw [mem_cons, ih has.tail hbs]
    cases x <;> simp [Meets]
  | case4 a as b bs hlt ih =>
    have hall := hbs.lt_all hlt
    rw [mem_cons, ih has.tail hbs]
    cases x with
    | left c =>
      simp only [Meets, Turn.left.injEq, mem_cons (a := c), or_and_right]
      exact or_congr_left ⟨fun h => ⟨h, fun y hy => h ▸ (hall y hy).ne'⟩, fun h => h.1⟩
    | right c =>
      simp only [Meets, reduceCtorEq, false_or, forall_mem_cons (a := a)]
      exact and_congr_right fun hc => ⟨fun h => ⟨(hall c hc).ne, h⟩, fun h => h.2⟩
    | both c d =>
      simp only [Meets, reduceCtorEq, false_or, mem_cons (a := c), or_and_right]
      refine ⟨.inr, fun h => h.resolve_left ?_⟩
      rintro ⟨rfl, hd, heq⟩
      exact (hall d hd).ne heq
  | case5 a as b bs hlt hgt ih =>
    have hall := has.lt_all hgt
    rw [mem_cons, ih has hbs.tail]
    cases x with
    | left c =>
      simp only [Meets, reduceCtorEq, false_or, forall_mem_cons (a := b)]
      exact and_congr_right fun hc => ⟨fun h => ⟨(hall c hc).ne, h⟩, fun h => h.2⟩
    | right c =>
      simp only [Meets, Turn.right.injEq, mem_cons (a := c), or_and_right]
      exact or_congr_left ⟨fun h => ⟨h, fun y hy => h ▸ (hall y hy).ne'⟩, fun h => h.1⟩
    | both c d =>
      simp only [Meets, reduceCtorEq, false_or, mem_cons (a := d)]
      refine ⟨fun ⟨hc, hd, heq⟩ => ⟨hc, .inr hd, heq⟩, fun ⟨hc, hd, heq⟩ => ⟨hc, ?_, heq⟩⟩
      refine hd.resolve_left ?_
      rintro rfl
      exact (hall c hc).ne heq.symm
  | case6 a as b bs hlt hgt ih =>
    have hkey : key a = key b := le_antisymm (not_lt.mp hgt) (not_lt.mp hlt)
    have ha := has.head_lt
    have hb := hbs.head_lt
    rw [mem_cons, ih has.tail hbs.tail]
    cases x with
    | left c =>
      simp only [Meets, reduceCtorEq, false_or, mem_cons (a := c), forall_mem_cons]
      constructor
      · rintro ⟨hc, h⟩
        exact ⟨.inr hc, (hkey ▸ ha c hc).ne, h⟩
      · rintro ⟨rfl | hc, hne, h⟩
        · exact absurd hkey.symm hne
        · exact ⟨hc, h⟩
    | right c =>
      simp only [Meets, reduceCtorEq, false_or, mem_cons (a := c), forall_mem_cons]
      constructor
      · rintro ⟨hc, h⟩
        exact ⟨.inr hc, (hkey ▸ hb c hc).ne, h⟩
      · rintro ⟨rfl | hc, hne, h⟩
        · exact absurd hkey hne
        · exact ⟨hc, h⟩
    | both c d =>
      simp only [Meets, Turn.both.injEq, mem_cons]
      constructor
      · rintro (⟨rfl, rfl⟩ | ⟨hc, hd, heq⟩)
        · exact ⟨.inl rfl, .inl rfl, hkey⟩
        · exact ⟨.inr hc, .inr hd, heq⟩
      · rintro ⟨rfl | hc, rfl | hd, heq⟩
        · exact .inl ⟨rfl, rfl⟩
        · exact absurd (hkey.symm.trans heq) (hb d hd).ne
        · exact absurd (hkey.trans heq.symm) (ha c hc).ne
        · exact .inr ⟨hc, hd, heq⟩

/-- A bound of both lists bounds the keys met. -/
theorem lt_key_of_mem (ha : ∀ a ∈ as, k < key a)
    (hb : ∀ b ∈ bs, k < key b) : ∀ x ∈ align key as bs, k < x.keyBy key := by
  intro x hx
  have hmeets := (mem_align has hbs x).mp hx
  cases x with
  | left a | both a _ => exact ha a hmeets.1
  | right b => exact hb b hmeets.1

/-- **The keys are met in increasing order.** -/
theorem pairwise_align : (align key as bs).Pairwise fun x y => x.keyBy key < y.keyBy key := by
  fun_induction align key as bs with
  | case1 => exact .nil
  | case2 b bs ih =>
    exact pairwise_cons.mpr ⟨lt_key_of_mem has hbs.tail nofun hbs.head_lt, ih has hbs.tail⟩
  | case3 a as ih =>
    exact pairwise_cons.mpr ⟨lt_key_of_mem has.tail hbs has.head_lt nofun, ih has.tail hbs⟩
  | case4 a as b bs hlt ih =>
    exact pairwise_cons.mpr
      ⟨lt_key_of_mem has.tail hbs has.head_lt (hbs.lt_all hlt), ih has.tail hbs⟩
  | case5 a as b bs hlt hgt ih =>
    exact pairwise_cons.mpr
      ⟨lt_key_of_mem has hbs.tail (has.lt_all hgt) hbs.head_lt, ih has hbs.tail⟩
  | case6 a as b bs hlt hgt ih =>
    have hkey : key a = key b := le_antisymm (not_lt.mp hgt) (not_lt.mp hlt)
    exact pairwise_cons.mpr
      ⟨lt_key_of_mem has.tail hbs.tail has.head_lt fun y hy => hkey.trans_lt (hbs.head_lt y hy),
        ih has.tail hbs.tail⟩

end

/-! ## Walking one list for each element of the other -/

@[simp] theorem align_nil_right (as : List α) : align key as [] = as.map .left := by
  induction as with
  | nil => rw [align, map_nil]
  | cons a as ih => rw [align, ih, map_cons]

@[simp] theorem align_nil_left (bs : List α) : align key [] bs = bs.map .right := by
  induction bs with
  | nil => rw [align, map_nil]
  | cons b bs ih => rw [align, ih, map_cons]

/-- An element in front of all of the other list is met first. -/
theorem align_cons_of_lt (h : ∀ b ∈ bs, key a < key b) :
    align key (a :: as) bs = .left a :: align key as bs := by
  cases bs with
  | nil => simp
  | cons b bs => rw [align, if_pos (h b mem_cons_self)]

theorem align_cons_of_gt (h : ∀ a ∈ as, key b < key a) :
    align key as (b :: bs) = .right b :: align key as bs := by
  cases as with
  | nil => simp
  | cons a as =>
    have hgt := h a mem_cons_self
    rw [align, if_neg hgt.asymm, if_pos hgt]

/-- **The cursor skips to an element of the other list.** -/
theorem align_cons_right (as : List α) (b : α) (bs : List α) :
    align key as (b :: bs) = (as.takeWhile fun a => key a < key b).map .left
      ++ align key (as.dropWhile fun a => key a < key b) (b :: bs) := by
  induction as with
  | nil => simp
  | cons a as ih =>
    by_cases hlt : key a < key b
    · rw [align, if_pos hlt, ih, takeWhile_cons_of_pos (by simpa using hlt),
        dropWhile_cons_of_pos (by simpa using hlt), map_cons, cons_append]
    · rw [takeWhile_cons_of_neg (by simpa using hlt),
        dropWhile_cons_of_neg (by simpa using hlt), map_nil, nil_append]

theorem align_cons_left (a : α) (as bs : List α) :
    align key (a :: as) bs = (bs.takeWhile fun b => key b < key a).map .right
      ++ align key (a :: as) (bs.dropWhile fun b => key b < key a) := by
  induction bs with
  | nil => simp
  | cons b bs ih =>
    by_cases hlt : key b < key a
    · rw [align, if_neg hlt.asymm, if_pos hlt, ih, takeWhile_cons_of_pos (by simpa using hlt),
        dropWhile_cons_of_pos (by simpa using hlt), map_cons, cons_append]
    · rw [takeWhile_cons_of_neg (by simpa using hlt),
        dropWhile_cons_of_neg (by simpa using hlt), map_nil, nil_append]

/-- Skipping below a key loses nothing that a key from there on could match. -/
theorem exists_mem_dropWhile_iff {p : α → Prop} (hp : ∀ b, p b → k ≤ key b) :
    (∃ b ∈ bs.dropWhile fun b => key b < k, p b) ↔ ∃ b ∈ bs, p b := by
  refine ⟨fun ⟨b, hb, h⟩ => ⟨b, (dropWhile_suffix _).subset hb, h⟩, fun ⟨b, hb, h⟩ => ⟨b, ?_, h⟩⟩
  rw [← takeWhile_append_dropWhile (p := fun b => decide (key b < k)) (l := bs)] at hb
  refine (mem_append.mp hb).resolve_left fun htake => ?_
  have hlt : key b < k := by
    simpa using all_eq_true.mp (all_takeWhile (l := bs)) b htake
  exact absurd (hp b h) (not_le.mpr hlt)

/-- The first element after skipping is not below the key. -/
theorem not_lt_of_dropWhile {bs' : List α}
    (h : (bs.dropWhile fun b => key b < k) = b :: bs') : k ≤ key b := by
  have hne : (bs.dropWhile fun b => key b < k) ≠ [] := by simp [h]
  have hnot := head_dropWhile_not (fun b => decide (key b < k)) hne
  simp only [h, head_cons, decide_eq_false_iff_not, not_lt] at hnot
  exact hnot

/-- Every element of the first list is met. -/
theorem length_le_length_align (key : α → κ) (as bs : List α) :
    as.length ≤ (align key as bs).length := by
  fun_induction align key as bs with
  | case1 => exact le_rfl
  | case2 b bs ih => exact zero_le
  | case3 a as ih => simp
  | case4 a as b bs hlt ih | case6 a as b bs hlt hgt ih => simpa using ih
  | case5 a as b bs hlt hgt ih => exact ih.trans (Nat.le_succ _)

end Alignment
