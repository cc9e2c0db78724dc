import Valgrind.Foundations.Alignment

/-!
# Foundations/SparseVector — vectors of counters, kept as sorted lists of the non-zero ones

A list that increases strictly by a key stands for the vector that has `val a` at `key a` for each of
its elements, and zero elsewhere (`index`).  Two such vectors are compared and combined by their
elements: `index_le_iff` and `index_align`.
-/

namespace SparseVector

open Alignment List

variable {α κ : Type} [LinearOrder κ] {key : α → κ} {val : α → ℕ} {l as bs : List α} {k : κ}

/-- The counter at a key. -/
def index (key : α → κ) (val : α → ℕ) (l : List α) (k : κ) : ℕ :=
  ((l.find? fun a => key a = k).map val).getD 0

theorem index_of_notMem (h : ∀ a ∈ l, key a ≠ k) : index key val l k = 0 := by
  have hnone : (l.find? fun a => key a = k) = none := by simpa using h
  rw [index, hnone]
  rfl

/-- A key has one element. -/
theorem eq_of_key_eq (h : Increasing key l) {a b : α} (ha : a ∈ l) (hb : b ∈ l)
    (hab : key a = key b) : a = b := by
  have hnodup : (l.map key).Nodup := pairwise_map.mpr (h.imp fun hlt => hlt.ne)
  exact inj_on_of_nodup_map hnodup ha hb hab

theorem index_of_mem (h : Increasing key l) {a : α} (ha : a ∈ l) :
    index key val l (key a) = val a := by
  cases hfind : l.find? fun b => key b = key a with
  | none => simpa using find?_eq_none.mp hfind a ha
  | some b =>
    have hkey : key b = key a := by simpa using find?_some hfind
    have hb : b = a := eq_of_key_eq h (mem_of_find?_eq_some hfind) ha hkey
    rw [index, hfind, hb]
    rfl

/-- A counter is that of an element, or there is none. -/
theorem index_cases (h : Increasing key l) (val : α → ℕ) (k : κ) :
    (∃ a ∈ l, key a = k ∧ index key val l k = val a)
      ∨ (∀ a ∈ l, key a ≠ k) ∧ index key val l k = 0 := by
  by_cases hk : ∃ a ∈ l, key a = k
  · obtain ⟨a, ha, rfl⟩ := hk
    exact .inl ⟨a, ha, rfl, index_of_mem h ha⟩
  · push Not at hk
    exact .inr ⟨hk, index_of_notMem hk⟩

theorem index_eq_zero_iff (h : Increasing key l) (hpos : ∀ a ∈ l, val a ≠ 0) :
    index key val l k = 0 ↔ ∀ a ∈ l, key a ≠ k := by
  refine ⟨?_, index_of_notMem⟩
  rintro hzero a ha rfl
  exact hpos a ha ((index_of_mem h ha).symm.trans hzero)

/-- **Pointwise comparison**, read off the elements. -/
theorem index_le_iff (has : Increasing key as) (hbs : Increasing key bs)
    (hpos : ∀ a ∈ as, val a ≠ 0) :
    (∀ k, index key val as k ≤ index key val bs k)
      ↔ ∀ a ∈ as, ∃ b ∈ bs, key b = key a ∧ val a ≤ val b := by
  constructor
  · intro hle a ha
    have hle := hle (key a)
    rw [index_of_mem has ha] at hle
    rcases index_cases hbs val (key a) with ⟨b, hb, hkey, hval⟩ | ⟨-, hzero⟩
    · exact ⟨b, hb, hkey, hval ▸ hle⟩
    · exact absurd (Nat.le_zero.mp (hzero ▸ hle)) (hpos a ha)
  · intro hall k
    rcases index_cases has val k with ⟨a, ha, rfl, hval⟩ | ⟨-, hzero⟩
    · obtain ⟨b, hb, hkey, hle⟩ := hall a ha
      rw [hval, ← hkey, index_of_mem hbs hb]
      exact hle
    · rw [hzero]
      exact zero_le

/-- **A vector is determined by its counters.** -/
theorem eq_of_index_eq (has : Increasing key as) (hbs : Increasing key bs)
    (hpa : ∀ a ∈ as, val a ≠ 0) (hpb : ∀ b ∈ bs, val b ≠ 0)
    (hinj : ∀ a b, key a = key b → val a = val b → a = b)
    (h : ∀ k, index key val as k = index key val bs k) : as = bs := by
  have hsub : ∀ {l l' : List α}, Increasing key l → Increasing key l' → (∀ a ∈ l, val a ≠ 0) →
      (∀ k, index key val l k = index key val l' k) → ∀ a ∈ l, a ∈ l' := by
    intro l l' hl hl' hp heq a ha
    have hval : val a = index key val l' (key a) := (index_of_mem hl ha).symm.trans (heq (key a))
    rcases index_cases hl' val (key a) with ⟨b, hb, hkey, hvb⟩ | ⟨-, hzero⟩
    · rw [hinj a b hkey.symm (hval.trans hvb)]
      exact hb
    · exact absurd (hval.trans hzero) (hp a ha)
  have hnodup : ∀ {l : List α}, Increasing key l → l.Nodup :=
    fun hl => hl.imp fun hlt heq => hlt.ne (congrArg key heq)
  have hperm := (perm_ext_iff_of_nodup (hnodup has) (hnodup hbs)).mpr fun a =>
    ⟨hsub has hbs hpa h a, hsub hbs has hpb (fun k => (h k).symm) a⟩
  exact hperm.eq_of_pairwise (fun _ _ _ _ h h' => absurd h' h.asymm) has hbs

/-- **One counter is changed.** -/
theorem index_replace (val : α → ℕ) {a b : α} (h : Increasing key (as ++ a :: bs))
    (hab : key b = key a) (k : κ) :
    index key val (as ++ b :: bs) k
      = if k = key a then val b else index key val (as ++ a :: bs) k := by
  have h' : Increasing key (as ++ b :: bs) := by
    rw [Increasing, ← pairwise_map] at h ⊢
    simpa [hab] using h
  by_cases hk : k = key a
  · rw [if_pos hk, hk, ← hab]
    exact index_of_mem h' (by simp)
  · rw [if_neg hk, index, index, find?_append, find?_append,
      find?_cons_of_neg (by simpa [hab] using Ne.symm hk),
      find?_cons_of_neg (by simpa using Ne.symm hk)]

/-! ## Along an alignment -/

/-- The counter made of what is met: where both lists have the key, their counters combined. -/
def valBy (val : α → ℕ) (g : ℕ → ℕ → ℕ) : Turn α → ℕ
  | .left a | .right a => val a
  | .both a b => g (val a) (val b)

section Align

variable {f : Turn α → α} {g : ℕ → ℕ → ℕ} (has : Increasing key as) (hbs : Increasing key bs)
include has hbs

section

variable (hkey : ∀ x ∈ align key as bs, key (f x) = x.keyBy key)
include hkey

/-- What is made of the turns of an alignment increases, if it keeps the keys. -/
theorem increasing_map_align : Increasing key ((align key as bs).map f) := by
  refine pairwise_map.mpr ?_
  refine (pairwise_align has hbs).imp_of_mem fun {x y} hx hy hlt => ?_
  rw [hkey x hx, hkey y hy]
  exact hlt

/-- **Vectors are combined pointwise**, if zero is neutral. -/
theorem index_align (hval : ∀ x ∈ align key as bs, val (f x) = valBy val g x)
    (hg : ∀ n, g n 0 = n) (hg' : ∀ n, g 0 n = n) (k : κ) :
    index key val ((align key as bs).map f) k = g (index key val as k) (index key val bs k) := by
  have hinc := increasing_map_align has hbs hkey
  have hat : ∀ x, Meets key as bs x → x.keyBy key = k →
      index key val ((align key as bs).map f) k = valBy val g x := fun x hmeets hxk => by
    have hx := (mem_align has hbs x).mpr hmeets
    rw [← hxk, ← hkey x hx, ← hval x hx]
    exact index_of_mem hinc (mem_map_of_mem hx)
  rcases index_cases has val k with ⟨a, ha, rfl, hva⟩ | ⟨hna, hza⟩
  · rcases index_cases hbs val (key a) with ⟨b, hb, hba, hvb⟩ | ⟨hnb, hzb⟩
    · rw [hat (.both a b) ⟨ha, hb, hba.symm⟩ rfl, hva, hvb, valBy]
    · rw [hat (.left a) ⟨ha, hnb⟩ rfl, hva, hzb, valBy, hg]
  · rcases index_cases hbs val k with ⟨b, hb, rfl, hvb⟩ | ⟨hnb, hzb⟩
    · rw [hat (.right b) ⟨hb, hna⟩ rfl, hza, hvb, valBy, hg']
    · rw [hza, hzb, hg]
      refine index_of_notMem fun c hc => ?_
      obtain ⟨x, hx, rfl⟩ := mem_map.mp hc
      have hmeets := (mem_align has hbs x).mp hx
      rw [hkey x hx]
      cases x with
      | left a | both a _ => exact hna a hmeets.1
      | right b => exact hnb b hmeets.1

end

/-- No counter of the combination is zero. -/
theorem pos_map_align (hval : ∀ x ∈ align key as bs, val (f x) = valBy val g x)
    (hg : ∀ m n, m ≤ g m n) (hpa : ∀ a ∈ as, val a ≠ 0) (hpb : ∀ b ∈ bs, val b ≠ 0) :
    ∀ c ∈ (align key as bs).map f, val c ≠ 0 := by
  refine forall_mem_map.mpr fun x hx => ?_
  have hmeets := (mem_align has hbs x).mp hx
  rw [hval x hx]
  cases x with
  | left a => exact hpa a hmeets.1
  | right b => exact hpb b hmeets.1
  | both a b => exact ((Nat.pos_of_ne_zero (hpa a hmeets.1)).trans_le (hg _ _)).ne'

end Align

end SparseVector
