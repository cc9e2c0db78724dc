import Mathlib.Data.Finset.Card

/-!
# Foundations/Recency — the recency stack of a reference string

    history t₁ … tₙ  ──▸  the distinct tᵢ, latest reference first

A reference moves its entry to the front of the stack and leaves the others in place
(`stack_concat`), so the entries above `t` are exactly the ones referenced since `t`
(`toFinset_takeWhile_stack`).  `mem_take_stack_iff` reads membership in a prefix of the stack as a
bound on that reuse distance.
-/

namespace Recency

open List

variable {α : Type*} [DecidableEq α] {h : List α}

/-! ## Erasing and prefixes -/

/-- Erasing commutes with the prefix up to an entry the predicate keeps. -/
theorem takeWhile_erase {p : α → Bool} {u : α} (hu : p u = true) :
    ∀ l : List α, (l.erase u).takeWhile p = (l.takeWhile p).erase u
  | [] => rfl
  | x :: l => by
      by_cases hx : x = u
      · subst hx
        simp [hu]
      · have hux : (x == u) = false := by simpa using hx
        by_cases hp : p x = true
        · simp only [erase_cons, hux, Bool.false_eq_true, if_false, takeWhile_cons, hp,
            if_true, takeWhile_erase hu l]
        · have hpf : p x = false := by simpa using hp
          simp [hux, hpf]

/-- Erasing an entry of a prefix shortens the prefix by one. -/
theorem take_erase_of_mem {t : α} (n : ℕ) (l : List α) (h : t ∈ l.take n) :
    (l.erase t).take (n - 1) = (l.take n).erase t := by
  have hlen := length_erase_of_mem h
  rw [length_take] at hlen
  conv_lhs => rw [← take_append_drop n l, erase_append_left _ h]
  rcases le_total n l.length with hn | hn
  · exact take_left' (by omega)
  · rw [drop_of_length_le hn, append_nil]
    exact take_of_length_le (by omega)

/-- Erasing an entry outside a prefix leaves the prefix. -/
theorem take_erase_of_notMem {t : α} (n : ℕ) (l : List α) (h : t ∉ l.take n) :
    (l.erase t).take n = l.take n := by
  conv_lhs => rw [← take_append_drop n l, erase_append_right _ h]
  rcases le_total n l.length with hn | hn
  · exact take_left' (length_take_of_le hn)
  · rw [drop_of_length_le hn, erase_nil, append_nil, take_take, min_self]

/-! ## The stack -/

/-- **The recency stack**: the distinct entries of a history, latest reference first. -/
def stack (h : List α) : List α := h.dedup.reverse

@[simp] theorem stack_nil : stack ([] : List α) = [] := rfl

@[simp] theorem mem_stack {t : α} : t ∈ stack h ↔ t ∈ h := by simp [stack]

theorem nodup_stack (h : List α) : (stack h).Nodup :=
  nodup_reverse.mpr (nodup_dedup h)

/-- Removing duplicates keeps last occurrences, so a new last entry evicts its earlier copy. -/
theorem dedup_concat (t : α) : ∀ h : List α, (h ++ [t]).dedup = h.dedup.erase t ++ [t]
  | [] => by simp
  | a :: h => by
      have ih := dedup_concat t h
      by_cases ha : a ∈ h
      · rw [cons_append, dedup_cons_of_mem (by simp [ha]), dedup_cons_of_mem ha, ih]
      · by_cases hat : a = t
        · subst hat
          rw [cons_append, dedup_cons_of_mem (by simp), dedup_cons_of_notMem ha, ih,
            erase_cons_head, erase_of_not_mem (by simpa using ha)]
        · have hat' : (a == t) = false := by simpa using hat
          rw [cons_append, dedup_cons_of_notMem (by simp [ha, hat]),
            dedup_cons_of_notMem ha, ih, erase_cons_tail (by simpa using hat),
            cons_append]

/-- **A reference moves its entry to the front.** -/
theorem stack_concat (h : List α) (t : α) : stack (h ++ [t]) = t :: (stack h).erase t := by
  rw [stack, dedup_concat, reverse_append, reverse_singleton, singleton_append,
    stack]
  congr 1
  exact (List.Nodup.erase_eq_filter (nodup_dedup h) t).symm ▸
    ((filter_reverse (l := h.dedup)).symm.trans
      (List.Nodup.erase_eq_filter (nodup_reverse.mpr (nodup_dedup h)) t).symm)

/-! ## Reuse distance -/

/-- The references since the last one to `t`, latest first. -/
def since (h : List α) (t : α) : List α := h.reverse.takeWhile fun u => u ≠ t

/-- The number of distinct entries referenced since the last reference to `t`. -/
def reuseDistance (h : List α) (t : α) : ℕ := (since h t).toFinset.card

@[simp] theorem since_concat_self (h : List α) (t : α) : since (h ++ [t]) t = [] := by
  simp [since]

theorem since_concat_of_ne {t u : α} (hut : u ≠ t) :
    since (h ++ [u]) t = u :: since h t := by simp [since, hut]

/-- **The entries above `t` are the ones referenced since `t`.** -/
theorem toFinset_takeWhile_stack {t : α} (h : List α) (ht : t ∈ h) :
    ((stack h).takeWhile fun u => u ≠ t).toFinset = (since h t).toFinset := by
  induction h using List.reverseRecOn with
  | nil => simp at ht
  | append_singleton h u ih =>
    rw [stack_concat]
    by_cases hut : u = t
    · subst hut
      simp
    · have hth : t ∈ h := by
        rcases mem_append.mp ht with h1 | h1
        · exact h1
        · exact absurd (mem_singleton.mp h1).symm hut
      have hfront : (u :: (stack h).erase u).takeWhile (fun u => u ≠ t)
          = u :: ((stack h).takeWhile fun u => u ≠ t).erase u := by
        rw [← takeWhile_erase (p := fun u => u ≠ t) (by simpa using hut)]
        simp [hut]
      rw [since_concat_of_ne hut, hfront, toFinset_cons, toFinset_cons, ← ih hth]
      ext x
      have hnd : ((stack h).takeWhile fun u => u ≠ t).Nodup :=
        (takeWhile_sublist _).nodup (nodup_stack h)
      by_cases hx : x = u
      · simp [hx]
      · simp only [Finset.mem_insert, hx, false_or, mem_toFinset, hnd.mem_erase_iff, ne_eq,
          not_false_eq_true, true_and]

/-- Membership in a prefix of a duplicate-free list bounds the number of entries above. -/
theorem mem_take_iff_takeWhile {t : α} : ∀ (n : ℕ) (l : List α),
    t ∈ l.take n ↔ t ∈ l ∧ (l.takeWhile fun u => u ≠ t).length < n
  | 0, l => by simp
  | n + 1, [] => by simp
  | n + 1, x :: l => by
      by_cases hx : x = t
      · subst hx
        simp
      · have ih := mem_take_iff_takeWhile (t := t) n l
        have hne : t ≠ x := fun h => hx h.symm
        simp only [take_succ_cons, mem_cons, hne, false_or, ih, takeWhile_cons,
          ne_eq, hx, not_false_eq_true, decide_true, if_true, length_cons,
          Nat.add_lt_add_iff_right]

/-- **The reuse distance decides membership in a prefix of the stack.** -/
theorem mem_take_stack_iff {t : α} (n : ℕ) :
    t ∈ (stack h).take n ↔ t ∈ h ∧ reuseDistance h t < n := by
  rw [mem_take_iff_takeWhile, mem_stack]
  refine and_congr_right fun ht => ?_
  have hnd : ((stack h).takeWhile fun u => u ≠ t).Nodup :=
    (takeWhile_sublist _).nodup (nodup_stack h)
  rw [reuseDistance, ← toFinset_takeWhile_stack h ht, toFinset_card_of_nodup hnd]

end Recency
