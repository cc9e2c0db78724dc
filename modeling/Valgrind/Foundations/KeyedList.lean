import Mathlib.Tactic

/-!
# Foundations/KeyedList — lists of keyed values, and a cache in front of one

A list of pairs is a map: a key's value is in the first pair with the key.  `Sorted` lists have one
pair for a key.  A **cache** is a short list of keys with what a map says of them; it is coherent
with the map as long as the *first* pair of each key is right, so that new knowledge is put in front
and old pairs may fall out at the end.
-/

namespace KeyedList

open List Option Prod

variable {κ ν : Type} {k : κ}

section Find

variable [DecidableEq κ] {l : List (κ × ν)}

/-- The value of a key. -/
def find (l : List (κ × ν)) (k : κ) : Option ν := (l.find? fun e => e.1 = k).map Prod.snd

@[simp] theorem find_nil (k : κ) : find ([] : List (κ × ν)) k = none := rfl

theorem find_cons (k : κ) (v : ν) (l : List (κ × ν)) (k' : κ) :
    find ((k, v) :: l) k' = if k = k' then some v else find l k' := by
  rw [find, find?_cons]
  split_ifs with h
  · simp [h]
  · simp only [h, decide_false]
    rfl

theorem mem_of_find {v : ν} (h : find l k = some v) : (k, v) ∈ l := by
  obtain ⟨e, he, rfl⟩ := map_eq_some_iff.mp h
  have hk : e.1 = k := by simpa using find?_some he
  subst hk
  exact mem_of_find?_eq_some he

theorem find_eq_none_iff : find l k = none ↔ ∀ v, (k, v) ∉ l := by
  rw [find, map_eq_none_iff, find?_eq_none]
  constructor
  · intro h v hv
    simpa using h _ hv
  · rintro h ⟨k', v⟩ he
    have : k' ≠ k := fun hk => h v (hk ▸ he)
    simpa using this

/-- What is found in a front part is found in the list. -/
theorem find_of_find_take {n : ℕ} {v : ν} (h : find (l.take n) k = some v) : find l k = some v := by
  obtain ⟨e, he, hv⟩ := map_eq_some_iff.mp h
  rw [find, ← take_append_drop n l, find?_append, he]
  exact congrArg some hv

/-- Without a key, all others are found as before. -/
theorem find_filter (l : List (κ × ν)) (k k' : κ) :
    find (l.filter fun e => e.1 ≠ k) k' = if k' = k then none else find l k' := by
  rw [find, find?_filter]
  simp only [decide_eq_true_eq]
  split_ifs with hk
  · simp [hk, find?_eq_none]
  · have hp : ∀ e : κ × ν, e.1 ≠ k ∧ e.1 = k' ↔ e.1 = k' := fun e =>
      and_iff_right_of_imp fun he => he ▸ hk
    simp only [hp, find]

end Find

/-! ## Sorted lists -/

section Sorted

variable [LinearOrder κ] {l : List (κ × ν)} {k : κ} {v : ν} {e : κ × ν}

/-- The keys increase. -/
def Sorted (l : List (κ × ν)) : Prop := l.Pairwise fun a b => a.1 < b.1

/-- A pair is put in front of all greater keys. -/
def insert (l : List (κ × ν)) (e : κ × ν) : List (κ × ν) :=
  (l.takeWhile fun x => x.1 < e.1) ++ e :: l.dropWhile fun x => x.1 < e.1

theorem insert_eq (l : List (κ × ν)) (e : κ × ν) :
    insert l e = l.orderedInsert (fun a b => a.1 ≤ b.1) e := by
  simp only [insert, orderedInsert_eq_take_drop, not_le]

theorem mem_insert {x : κ × ν} : x ∈ insert l e ↔ x = e ∨ x ∈ l := by
  rw [insert_eq, mem_orderedInsert]

/-- Each key has one value. -/
theorem Sorted.value_unique (h : Sorted l) {v' : ν} (hv : (k, v) ∈ l) (hv' : (k, v') ∈ l) : v = v' := by
  have hnodup : (l.map fst).Nodup := pairwise_map.mpr (h.imp fun hlt => hlt.ne)
  exact congrArg snd (inj_on_of_nodup_map hnodup hv hv' rfl)

theorem Sorted.find_eq_some_iff (h : Sorted l) : find l k = some v ↔ (k, v) ∈ l := by
  refine ⟨mem_of_find, fun hv => ?_⟩
  cases hf : find l k with
  | none => exact absurd hv (find_eq_none_iff.mp hf v)
  | some v' => rw [h.value_unique (mem_of_find hf) hv]

/-- The first key does not come again. -/
theorem Sorted.find_tail (h : Sorted ((k, v) :: l)) : find l k = none :=
  find_eq_none_iff.mpr fun _ hv => lt_irrefl k ((pairwise_cons.mp h).1 _ hv)

theorem Sorted.insert (h : Sorted l) (hk : find l e.1 = none) : Sorted (KeyedList.insert l e) := by
  rw [insert_eq]
  have hle := List.Pairwise.orderedInsert (r := Order.Preimage fst (· ≤ ·)) e l (h.imp le_of_lt)
  refine hle.imp₂ (fun a b => lt_of_le_of_ne) ?_
  -- no key is there twice, in any order
  refine ((perm_orderedInsert _ e l).pairwise_iff Ne.symm).mpr (pairwise_cons.mpr
    ⟨fun x hx heq => find_eq_none_iff.mp hk x.2 (heq ▸ hx), h.imp ne_of_lt⟩)

theorem Sorted.find_insert (h : Sorted l) (hk : find l e.1 = none) (k' : κ) :
    find (KeyedList.insert l e) k' = if k' = e.1 then some e.2 else find l k' := by
  refine ext fun v => ?_
  rw [(h.insert hk).find_eq_some_iff, mem_insert, Prod.ext_iff]
  split_ifs with hk'
  · subst hk'
    have hnot := find_eq_none_iff.mp hk v
    simp [hnot, eq_comm]
  · rw [h.find_eq_some_iff]
    simp [hk']

end Sorted

/-! ## A cache -/

section Cache

variable [DecidableEq κ] {cache : List (κ × Option ν)} {m : κ → Option ν}

/-- What the cache says of a key is right. -/
def Coherent (cache : List (κ × Option ν)) (m : κ → Option ν) : Prop :=
  ∀ k v, find cache k = some v → v = m k

/-- What the map says of one key is put in front, and the end may be lost. -/
theorem Coherent.push (h : Coherent cache m) {m' : κ → Option ν}
    (hm : ∀ k', k' ≠ k → m' k' = m k') (n : ℕ) : Coherent (((k, m' k) :: cache).take n) m' := by
  intro k' v hv
  have hfind := find_of_find_take hv
  rw [find_cons] at hfind
  split_ifs at hfind with hk
  · rw [← hk]
    exact (some.inj hfind).symm
  · rw [hm k' (Ne.symm hk)]
    exact h k' v hfind

end Cache

end KeyedList
