import Mathlib.Tactic

/-!
# Foundations/FiniteMap — partial functions listed by their bindings

`Lists f l` says that the list `l` has the bindings of the partial function `f`, each key once.  Two
partial functions are merged key by key, values at a common key by an operation; a sum over the
values turns the operation into addition (`Lists.sum_merge`).  Merging in one binding after the
other is merging in all of them (`Lists.foldl_merge`).
-/

namespace FiniteMap

open List Function

variable {ι κ μ ν M : Type} {f g : κ → Option ν} {l l' : List (κ × ν)} {op : ν → ν → ν}

/-- Two partial functions, with an operation for keys that both bind. -/
def merge (op : ν → ν → ν) (f g : κ → Option ν) : κ → Option ν := fun k => Option.merge op (f k) (g k)

/-- One binding. -/
def single [DecidableEq κ] (k : κ) (v : ν) : κ → Option ν := fun k' => if k' = k then some v else none

@[simp] theorem single_self [DecidableEq κ] (k : κ) (v : ν) : single k v k = some v := if_pos rfl

theorem single_of_ne [DecidableEq κ] {k k' : κ} (h : k' ≠ k) (v : ν) : single k v k' = none := if_neg h

theorem merge_none (op : ν → ν → ν) (f : κ → Option ν) : merge op f (fun _ => none) = f :=
  funext fun k => by simp [merge]

theorem none_merge (op : ν → ν → ν) (f : κ → Option ν) : merge op (fun _ => none) f = f :=
  funext fun k => by simp [merge]

/-- Merging in one binding changes one key. -/
theorem update_eq_merge [DecidableEq κ] {k : κ} {v d : ν}
    (h : Option.merge op (f k) (some v) = some d) :
    Function.update f k (some d) = merge op f (single k v) := by
  funext k'
  by_cases hk : k' = k
  · subst hk
    simp [merge, h]
  · simp [merge, hk, single_of_ne hk]

/-- The list has the bindings of the partial function, each key once. -/
structure Lists (f : κ → Option ν) (l : List (κ × ν)) : Prop where
  nodup_keys : (l.map Prod.fst).Nodup
  mem_iff : ∀ k v, (k, v) ∈ l ↔ f k = some v

namespace Lists

/-- Two lists of one function have the same bindings. -/
theorem perm (h : Lists f l) (h' : Lists f l') : l.Perm l' :=
  (perm_ext_iff_of_nodup h.nodup_keys.of_map h'.nodup_keys.of_map).mpr fun ⟨k, v⟩ =>
    (h.mem_iff k v).trans (h'.mem_iff k v).symm

theorem single [DecidableEq κ] (k : κ) (v : ν) : Lists (FiniteMap.single k v) [(k, v)] := by
  refine ⟨nodup_singleton k, fun k' v' => ?_⟩
  rw [mem_singleton, Prod.mk.injEq, FiniteMap.single]
  split_ifs with hk <;> simp [hk, eq_comm]

/-- A list's values may be mapped. -/
theorem map_val (h : Lists f l) (φ : ν → μ) :
    Lists (fun k => (f k).map φ) (l.map fun b => (b.1, φ b.2)) := by
  refine ⟨by simpa [map_map, comp_def] using h.nodup_keys, fun k w => ?_⟩
  simp only [mem_map, Prod.mk.injEq, Option.map_eq_some_iff]
  constructor
  · rintro ⟨⟨k, v⟩, hb, rfl, rfl⟩
    exact ⟨v, (h.mem_iff k v).mp hb, rfl⟩
  · rintro ⟨v, hv, rfl⟩
    exact ⟨(k, v), (h.mem_iff k v).mpr hv, rfl, rfl⟩

/-- Without its first binding. -/
theorem tail [DecidableEq κ] {b : κ × ν} (h : Lists f (b :: l)) :
    Lists (Function.update f b.1 none) l := by
  obtain ⟨hb, hl⟩ := nodup_cons.mp h.nodup_keys
  refine ⟨hl, fun k v => ?_⟩
  rw [update_apply]
  split_ifs with hk
  · subst hk
    exact iff_of_false (fun hmem => hb (mem_map.mpr ⟨_, hmem, rfl⟩)) nofun
  · rw [← h.mem_iff, mem_cons]
    exact ⟨.inr, fun h => h.resolve_left fun heq => hk (congrArg Prod.fst heq)⟩

/-- **Merging in the bindings one after the other merges in the function.** -/
theorem foldl_merge [DecidableEq κ] (op : ν → ν → ν) (h : Lists g l) (f : κ → Option ν) :
    l.foldl (fun f b => merge op f (FiniteMap.single b.1 b.2)) f = merge op f g := by
  induction l generalizing f g with
  | nil =>
    obtain rfl : g = fun _ => none := funext fun k => Option.eq_none_iff_forall_ne_some.mpr
      fun v hv => not_mem_nil ((h.mem_iff k v).mpr hv)
    exact (merge_none op f).symm
  | cons b l ih =>
    have hb : g b.1 = some b.2 := (h.mem_iff b.1 b.2).mp mem_cons_self
    rw [foldl_cons, ih h.tail]
    funext k
    by_cases hk : k = b.1
    · subst hk
      simp [merge, hb]
    · simp [merge, single_of_ne hk, hk]

/-- **The bindings of a function whose values are functions, flattened.** -/
theorem flatten {h : κ → Option μ} {hs : List (κ × μ)} (hh : Lists h hs)
    {inner : μ → ι → Option ν} {lists : μ → List (ι × ν)}
    (hinner : ∀ k m, h k = some m → Lists (inner m) (lists m)) :
    Lists (fun p : κ × ι => (h p.1).bind (inner · p.2))
      (hs.flatMap fun b => (lists b.2).map fun c => ((b.1, c.1), c.2)) := by
  constructor
  · rw [map_flatMap, nodup_flatMap]
    refine ⟨fun b hb => ?_, (pairwise_map.mp hh.nodup_keys).imp fun {a b} hab => ?_⟩
    · have hb' := hinner b.1 b.2 ((hh.mem_iff b.1 b.2).mp hb)
      have hpair : (lists b.2).map (Prod.fst ∘ fun c => ((b.1, c.1), c.2))
          = ((lists b.2).map Prod.fst).map (Prod.mk b.1) := by simp
      rw [map_map, hpair]
      exact hb'.nodup_keys.map (Prod.mk_right_injective b.1)
    · intro p hpa hpb
      simp only [map_map, mem_map, comp_apply] at hpa hpb
      obtain ⟨_, -, rfl⟩ := hpa
      obtain ⟨_, -, heq⟩ := hpb
      exact hab (Prod.mk.inj heq).1.symm
  · rintro ⟨k, i⟩ v
    simp only [mem_flatMap, mem_map, Prod.mk.injEq, Option.bind_eq_some_iff]
    constructor
    · rintro ⟨⟨k, m⟩, hb, ⟨i, v⟩, hc, ⟨rfl, rfl⟩, rfl⟩
      have hm := (hh.mem_iff k m).mp hb
      exact ⟨m, hm, ((hinner k m hm).mem_iff i v).mp hc⟩
    · rintro ⟨m, hm, hv⟩
      exact ⟨(k, m), (hh.mem_iff k m).mpr hm, (i, v), ((hinner k m hm).mem_iff i v).mpr hv, by simp⟩

section Sum

variable [AddCommMonoid M] [DecidableEq κ] {φ : ν → M}

/-- The sum over a list is the sum over any set of keys that has all bound ones. -/
theorem sum_eq (h : Lists f l) {K : Finset κ} (hK : ∀ k v, f k = some v → k ∈ K) :
    (l.map fun b => φ b.2).sum = ∑ k ∈ K, (f k).elim 0 φ := by
  have hval : (l.map Prod.fst).map (fun k => (f k).elim 0 φ) = l.map fun b => φ b.2 := by
    rw [map_map]
    refine map_congr_left fun b hb => ?_
    simp [(h.mem_iff b.1 b.2).mp hb]
  rw [← hval, ← sum_toFinset _ h.nodup_keys]
  refine Finset.sum_subset (fun k hk => ?_) fun k _ hk => ?_
  · obtain ⟨b, hb, rfl⟩ := mem_map.mp (mem_toFinset.mp hk)
    exact hK _ _ ((h.mem_iff b.1 b.2).mp hb)
  · cases hf : f k with
    | none => rfl
    | some v =>
      refine absurd (mem_toFinset.mpr ?_) hk
      exact mem_map.mpr ⟨(k, v), (h.mem_iff k v).mpr hf, rfl⟩

/-- **The sum of a merge is the sum of the sums.** -/
theorem sum_merge {m : List (κ × ν)} (hf : Lists f l) (hg : Lists g l')
    (hm : Lists (merge op f g) m)
    (hop : ∀ k a b, f k = some a → g k = some b → φ (op a b) = φ a + φ b) :
    (m.map fun b => φ b.2).sum = (l.map fun b => φ b.2).sum + (l'.map fun b => φ b.2).sum := by
  let K := (l.map Prod.fst ++ l'.map Prod.fst).toFinset
  have hKf : ∀ k v, f k = some v → k ∈ K := fun k v hv => by
    have := mem_map_of_mem (f := Prod.fst) ((hf.mem_iff k v).mpr hv)
    simp [K, this]
  have hKg : ∀ k v, g k = some v → k ∈ K := fun k v hv => by
    have := mem_map_of_mem (f := Prod.fst) ((hg.mem_iff k v).mpr hv)
    simp [K, this]
  have hKm : ∀ k v, merge op f g k = some v → k ∈ K := fun k v hv => by
    cases hfk : f k with
    | some a => exact hKf k a hfk
    | none =>
      exact hKg k v (by simpa [merge, hfk] using hv)
  rw [hf.sum_eq hKf, hg.sum_eq hKg, hm.sum_eq hKm, ← Finset.sum_add_distrib]
  refine Finset.sum_congr rfl fun k _ => ?_
  cases hfk : f k with
  | none => simp [merge, hfk]
  | some a =>
    cases hgk : g k with
    | none => simp [merge, hfk, hgk]
    | some b => simp [merge, hfk, hgk, hop k a b hfk hgk]

end Sum

end Lists

end FiniteMap
