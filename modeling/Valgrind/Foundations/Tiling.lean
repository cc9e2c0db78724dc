import Valgrind.Foundations.Bisection

/-!
# Foundations/Tiling — lists of pieces that tile a range of numbers

A piece covers the numbers from its `first` to its `last`.  A list of pieces **tiles** `[a, b)` if
each piece starts where the one before it ends, from `a` up to `b`.  What a piece says of the
numbers it covers is its `view`; a tiling then **denotes** a function on `[a, b)`.

An update of the function on a part of the range cuts pieces at both ends of the part (`cut`),
replaces what lies between, and joins pieces again where it can (`coalesce`).  Cutting and joining
keep the tiling and what it denotes, and after joining no two neighbours can be joined.
-/

namespace Tiling

/-- The ends of a piece. -/
class Piece (σ : Type) where
  first : σ → ℕ
  last : σ → ℕ

open Piece List Nat

variable {σ β : Type} [Piece σ] {a b p x : ℕ} {s t u : σ} {l l₁ l₂ : List σ} {P : σ → Prop}

/-- The pieces cover `[a, b)`, in order, without a gap and without an overlap. -/
def Tiles : ℕ → List σ → ℕ → Prop
  | a, [], b => a = b
  | a, s :: l, b => first s = a ∧ first s ≤ last s ∧ Tiles (last s + 1) l b

/-- Every piece says what the function says. -/
def Denotes (view : σ → ℕ → β) (l : List σ) (f : ℕ → β) : Prop :=
  ∀ s ∈ l, ∀ x, first s ≤ x → x ≤ last s → view s x = f x

/-- On which side of a piece a number lies. -/
def side (x : ℕ) (s : σ) : Ordering := if x < first s then .lt else if x > last s then .gt else .eq

/-! ## Finding a piece -/

theorem tiles_append : Tiles a (l₁ ++ l₂) b ↔ ∃ p, Tiles a l₁ p ∧ Tiles p l₂ b := by
  induction l₁ generalizing a with
  | nil => exact ⟨fun h => ⟨a, rfl, h⟩, fun ⟨p, hp, h⟩ => (show a = p from hp) ▸ h⟩
  | cons s l ih =>
    constructor
    · rintro ⟨hs, hle, h⟩
      obtain ⟨p, hl, hr⟩ := ih.mp h
      exact ⟨p, ⟨hs, hle, hl⟩, hr⟩
    · rintro ⟨p, ⟨hs, hle, hl⟩, hr⟩
      exact ⟨hs, hle, ih.mpr ⟨p, hl, hr⟩⟩

/-- Pieces with the same ends. -/
theorem tiles_map {g : σ → σ} (hfirst : ∀ s, first (g s) = first s)
    (hlast : ∀ s, last (g s) = last s) : Tiles a (l.map g) b ↔ Tiles a l b := by
  induction l generalizing a with
  | nil => rfl
  | cons s l ih => rw [map_cons, Tiles, Tiles, hfirst, hlast, ih]

namespace Tiles

theorem append (h₁ : Tiles a l₁ p) (h₂ : Tiles p l₂ b) : Tiles a (l₁ ++ l₂) b :=
  tiles_append.mpr ⟨p, h₁, h₂⟩

section

variable (h : Tiles a l b)
include h

theorem le : a ≤ b := by
  induction l generalizing a with
  | nil => exact le_of_eq h
  | cons s l ih =>
    obtain ⟨rfl, hle, h⟩ := h
    exact (hle.trans (le_succ _)).trans (ih h)

theorem bounds : ∀ s ∈ l, a ≤ first s ∧ first s ≤ last s ∧ last s < b := by
  induction l generalizing a with
  | nil => exact fun s hs => absurd hs not_mem_nil
  | cons t l ih =>
    obtain ⟨rfl, hle, h⟩ := h
    refine forall_mem_cons.mpr ⟨⟨le_rfl, hle, h.le⟩, fun s hs => ?_⟩
    have := ih h s hs
    omega

/-- Every number of the range lies in a piece. -/
theorem exists_piece (ha : a ≤ x) (hb : x < b) :
    ∃ l₁ s l₂, l = l₁ ++ s :: l₂ ∧ Tiles a l₁ (first s) ∧ first s ≤ x ∧ x ≤ last s
      ∧ Tiles (last s + 1) l₂ b := by
  induction l generalizing a with
  | nil =>
    obtain rfl : a = b := h
    omega
  | cons s l ih =>
    obtain ⟨rfl, hle, h⟩ := h
    by_cases hx : x ≤ last s
    · exact ⟨[], s, l, rfl, rfl, ha, hx, h⟩
    · obtain ⟨l₁, t, l₂, rfl, h₁, hfirst, hlast, h₂⟩ := ih h (by omega)
      exact ⟨s :: l₁, t, l₂, rfl, ⟨rfl, hle, h₁⟩, hfirst, hlast, h₂⟩

/-- The first piece of a tiling starts where the range does… -/
theorem exists_head (hab : a < b) : ∃ s r, l = s :: r ∧ first s = a ∧ first s ≤ last s := by
  cases l with
  | nil => exact absurd h hab.ne
  | cons s r => exact ⟨s, r, rfl, h.1, h.2.1⟩

/-- …and the last piece ends where it does. -/
theorem exists_last (hab : a < b) : ∃ r s, l = r ++ [s] ∧ first s ≤ last s ∧ last s + 1 = b := by
  rcases l.eq_nil_or_concat with rfl | ⟨r, s, rfl⟩
  · exact absurd h hab.ne
  · rw [concat_eq_append] at h ⊢
    obtain ⟨p, -, -, hle, hlast⟩ := tiles_append.mp h
    exact ⟨r, s, rfl, hle, hlast⟩

end

/-- Neighbours of a tiling touch. -/
theorem neighbours (h : Tiles a (l₁ ++ s :: t :: l₂) b) :
    first s ≤ last s ∧ last s + 1 = first t ∧ first t ≤ last t ∧ last t < b := by
  obtain ⟨p, -, -, hs, hst, ht, h₂⟩ := tiles_append.mp h
  exact ⟨hs, hst.symm, ht, h₂.le⟩

/-- …so a relation of neighbours may be stated for such pieces. -/
theorem isChain_iff (h : Tiles a l b) {R S : σ → σ → Prop}
    (hRS : ∀ s t, first s ≤ last s → last s + 1 = first t → first t ≤ last t → last t < b →
      (R s t ↔ S s t)) : l.IsChain R ↔ l.IsChain S := by
  rw [isChain_iff_forall_rel_of_append_cons_cons,
    isChain_iff_forall_rel_of_append_cons_cons]
  refine forall₄_congr fun s t l₁ l₂ => forall_congr' fun heq => ?_
  obtain ⟨hs, hst, ht, hb⟩ := (heq ▸ h).neighbours
  exact hRS s t hs hst ht hb

section

variable (h : Tiles a (l₁ ++ s :: l₂) b) (hfirst : first s ≤ x) (hlast : x ≤ last s)
include h hfirst hlast

/-- Where the piece around a number is, seen from any index. -/
theorem index_iff {i : ℕ} (hi : (l₁ ++ s :: l₂)[i]? = some t) :
    (l₁.length ≤ i ↔ x ≤ last t) ∧ (i ≤ l₁.length ↔ first t ≤ x) := by
  obtain ⟨p, h₁, rfl, -, h₂⟩ := tiles_append.mp h
  rcases lt_trichotomy i l₁.length with hlt | rfl | hgt
  · rw [getElem?_append_left hlt] at hi
    have := h₁.bounds t (mem_of_getElem? hi)
    omega
  · rw [getElem?_append_right le_rfl, Nat.sub_self, getElem?_cons_zero] at hi
    cases hi
    omega
  · have hmem : t ∈ l₂ := by
      rw [getElem?_append_right hgt.le, getElem?_cons, if_neg (by omega)] at hi
      exact mem_of_getElem? hi
    have := h₂.bounds t hmem
    omega

/-- A search for a number can rely on comparing it with the pieces. -/
theorem side_eq_compare {i : ℕ} (hi : (l₁ ++ s :: l₂)[i]? = some t) :
    side x t = compare (l₁.length : ℤ) i := by
  obtain ⟨hle, hge⟩ := h.index_iff hfirst hlast hi
  rw [side, eq_comm]
  split_ifs with hlt hgt
  · exact compare_lt_iff_lt.mpr (by omega)
  · exact compare_gt_iff_gt.mpr (by omega)
  · exact compare_eq_iff_eq.mpr (by omega)

/-- **Bisection finds the piece around a number.** -/
theorem bisect_eq {ε : Type} {look : ℤ → Except ε Ordering}
    (hlook : ∀ (i : ℕ) t, (l₁ ++ s :: l₂)[i]? = some t → look i = .ok (side x t)) (notFound : ε)
    {hi : ℤ} (hlo : l₁.length ≤ hi) (hhi : hi ≤ (l₁ ++ s :: l₂).length) :
    Bisection.bisect look notFound 0 hi = .ok l₁.length := by
  refine Bisection.bisect_eq_ok notFound (fun i h0 hi => ?_) (by simp) le_rfl (by positivity) hlo hhi
  lift i to ℕ using h0
  have hget := getElem?_eq_getElem (Int.ofNat_lt.mp hi)
  rw [hlook i _ hget, h.side_eq_compare hfirst hlast hget]

/-- Only one index is that of a piece around a number. -/
theorem index_eq {i : ℕ} (hi : (l₁ ++ s :: l₂)[i]? = some t) (hft : first t ≤ x) (hxt : x ≤ last t) :
    l₁.length = i := by
  obtain ⟨hle, hge⟩ := h.index_iff hfirst hlast hi
  exact le_antisymm (hle.mpr hxt) (hge.mpr hft)

end

/-- A number is in one piece only. -/
theorem eq_of_mem (h : Tiles a l b) (hs : s ∈ l) (ht : t ∈ l) (hfs : first s ≤ x) (hxs : x ≤ last s)
    (hft : first t ≤ x) (hxt : x ≤ last t) : s = t := by
  obtain ⟨l₁, l₂, rfl⟩ := append_of_mem hs
  obtain ⟨i, hi⟩ := mem_iff_getElem?.mp ht
  obtain rfl := h.index_eq hfs hxs hi hft hxt
  rw [getElem?_append_right le_rfl, Nat.sub_self, getElem?_cons_zero] at hi
  exact Option.some.inj hi

end Tiles

namespace Denotes

variable {view : σ → ℕ → β} {f g : ℕ → β}

theorem append : Denotes view (l₁ ++ l₂) f ↔ Denotes view l₁ f ∧ Denotes view l₂ f :=
  forall_mem_append

theorem cons : Denotes view (s :: l) f
    ↔ (∀ x, first s ≤ x → x ≤ last s → view s x = f x) ∧ Denotes view l f := forall_mem_cons

/-- Only the numbers of the tiled range matter. -/
theorem congr (h : Denotes view l f) (hl : Tiles a l b) (hfg : ∀ x, a ≤ x → x < b → f x = g x) :
    Denotes view l g := by
  intro s hs x hfirst hlast
  have := hl.bounds s hs
  rw [h s hs x hfirst hlast, hfg x (by omega) (by omega)]

end Denotes

/-! ## Cutting -/

/-- Cut the piece around a number, so that a piece starts there. -/
def cut (split : σ → ℕ → σ × σ) (p : ℕ) : List σ → List σ
  | [] => []
  | s :: l =>
    if p ≤ first s then s :: l
    else if p ≤ last s then (split s p).1 :: (split s p).2 :: l
    else s :: cut split p l

/-- Splitting a piece leaves two pieces that say what it said. -/
structure IsSplit (view : σ → ℕ → β) (split : σ → ℕ → σ × σ) : Prop where
  first_fst : ∀ s p, first s < p → p ≤ last s → first (split s p).1 = first s
  last_fst : ∀ s p, first s < p → p ≤ last s → last (split s p).1 + 1 = p
  first_snd : ∀ s p, first s < p → p ≤ last s → first (split s p).2 = p
  last_snd : ∀ s p, first s < p → p ≤ last s → last (split s p).2 = last s
  view_fst : ∀ s p x, first s < p → p ≤ last s → first s ≤ x → x < p →
    view (split s p).1 x = view s x
  view_snd : ∀ s p x, first s < p → p ≤ last s → p ≤ x → x ≤ last s →
    view (split s p).2 x = view s x

section Cut

variable {view : σ → ℕ → β} {split : σ → ℕ → σ × σ} {f : ℕ → β}

theorem cut_append (h : Tiles a l₁ b) (hp : b ≤ p) (l₂ : List σ) :
    cut split p (l₁ ++ l₂) = l₁ ++ cut split p l₂ := by
  induction l₁ generalizing a with
  | nil => rfl
  | cons s l ih =>
    obtain ⟨rfl, hle, h⟩ := h
    have := h.le
    rw [cons_append, cut, if_neg (by omega), if_neg (by omega), ih h, cons_append]

/-- Where a piece starts there is nothing to cut. -/
theorem cut_of_tiles (h : Tiles p l b) : cut split p l = l := by
  cases l with
  | nil => rfl
  | cons s l =>
    obtain ⟨rfl, -⟩ := h
    exact if_pos le_rfl

theorem cut_start (h : Tiles a (l₁ ++ s :: l₂) b) (hp : first s = p) :
    cut split p (l₁ ++ s :: l₂) = l₁ ++ s :: l₂ := by
  obtain ⟨q, h₁, h₂⟩ := tiles_append.mp h
  obtain rfl : q = p := h₂.1.symm.trans hp
  rw [cut_append h₁ le_rfl, cut_of_tiles h₂]

theorem cut_inside (h : Tiles a (l₁ ++ s :: l₂) b) (hlt : first s < p) (hle : p ≤ last s) :
    cut split p (l₁ ++ s :: l₂) = l₁ ++ (split s p).1 :: (split s p).2 :: l₂ := by
  obtain ⟨q, h₁, rfl, -⟩ := tiles_append.mp h
  rw [cut_append h₁ hlt.le, cut, if_neg (not_le.mpr hlt), if_pos hle]

/-- A cut tiling falls into two tilings. -/
theorem IsSplit.tiles_cut (hs : IsSplit view split) (h : Tiles a l b) (ha : a ≤ p) (hb : p ≤ b) :
    ∃ l₁ l₂, cut split p l = l₁ ++ l₂ ∧ Tiles a l₁ p ∧ Tiles p l₂ b := by
  induction l generalizing a with
  | nil =>
    obtain rfl : a = b := h
    obtain rfl : a = p := le_antisymm ha hb
    exact ⟨[], [], rfl, rfl, rfl⟩
  | cons s l ih =>
    obtain ⟨rfl, hle, h⟩ := h
    rw [cut]
    split_ifs with hfirst hlast
    · obtain rfl := le_antisymm ha hfirst
      exact ⟨[], s :: l, rfl, rfl, rfl, hle, h⟩
    · have hlt := lt_of_not_ge hfirst
      have hl₁ := hs.last_fst s p hlt hlast
      have hf₁ := hs.first_fst s p hlt hlast
      have hf₂ := hs.first_snd s p hlt hlast
      have hl₂ := hs.last_snd s p hlt hlast
      exact ⟨[(split s p).1], (split s p).2 :: l, rfl, ⟨hf₁, by omega, hl₁⟩, hf₂, by omega,
        by rwa [hl₂]⟩
    · obtain ⟨l₁, l₂, heq, h₁, h₂⟩ := ih h (by omega)
      exact ⟨s :: l₁, l₂, by rw [heq, cons_append], ⟨rfl, hle, h₁⟩, h₂⟩

/-- A property of pieces that passes to both halves holds of all pieces after a cut. -/
theorem forall_mem_cut
    (hP : ∀ s, first s < p → p ≤ last s → P s → P (split s p).1 ∧ P (split s p).2)
    (h : ∀ s ∈ l, P s) : ∀ s ∈ cut split p l, P s := by
  induction l with
  | nil => exact h
  | cons s l ih =>
    obtain ⟨hs, hl⟩ := forall_mem_cons.mp h
    rw [cut]
    split_ifs with hfirst hlast
    · exact h
    · obtain ⟨h₁, h₂⟩ := hP s (lt_of_not_ge hfirst) hlast hs
      exact forall_mem_cons.mpr ⟨h₁, forall_mem_cons.mpr ⟨h₂, hl⟩⟩
    · exact forall_mem_cons.mpr ⟨hs, ih hl⟩

/-- **A cut tiling falls into two tilings** that say what it said. -/
theorem cut_spec (hs : IsSplit view split) (h : Tiles a l b) (hf : Denotes view l f) (ha : a ≤ p)
    (hb : p ≤ b) :
    ∃ l₁ l₂, cut split p l = l₁ ++ l₂ ∧ Tiles a l₁ p ∧ Tiles p l₂ b
      ∧ Denotes view l₁ f ∧ Denotes view l₂ f := by
  obtain ⟨l₁, l₂, hcut, h₁, h₂⟩ := hs.tiles_cut h ha hb
  refine ⟨l₁, l₂, hcut, h₁, h₂, Denotes.append.mp (hcut ▸ forall_mem_cut ?_ hf)⟩
  intro s hlt hlast hs'
  have hl₁ := hs.last_fst s p hlt hlast
  have hf₁ := hs.first_fst s p hlt hlast
  have hf₂ := hs.first_snd s p hlt hlast
  have hl₂ := hs.last_snd s p hlt hlast
  refine ⟨fun x hx hx' => ?_, fun x hx hx' => ?_⟩
  · rw [hs.view_fst s p x hlt hlast (by omega) (by omega), hs' x (by omega) (by omega)]
  · rw [hs.view_snd s p x hlt hlast (by omega) (by omega), hs' x (by omega) (by omega)]

/-- Behind the tiled range there is nothing to cut either. -/
theorem cut_of_le (h : Tiles a l b) (hp : b ≤ p) : cut split p l = l := by
  have hcut : cut split p (l ++ []) = l ++ cut split p [] := cut_append h hp []
  rwa [append_nil, cut, append_nil] at hcut

/-- Wherever a tiling is cut, it stays one. -/
theorem IsSplit.tiles (hs : IsSplit view split) (h : Tiles a l b) (ha : a ≤ p) :
    Tiles a (cut split p l) b := by
  rcases le_total p b with hb | hb
  · obtain ⟨l₁, l₂, hcut, h₁, h₂⟩ := hs.tiles_cut h ha hb
    exact hcut ▸ h₁.append h₂
  · rwa [cut_of_le h hb]

theorem length_cut_le (split : σ → ℕ → σ × σ) (p : ℕ) (l : List σ) :
    (cut split p l).length ≤ l.length + 1 := by
  induction l with
  | nil => exact zero_le
  | cons s l ih =>
    rw [cut]
    split_ifs
    · exact le_succ _
    · exact le_rfl
    · exact succ_le_succ ih

end Cut

/-! ## Joining -/

/-- Join neighbours from the front, as long as they can be joined. -/
def coalesce (merge : σ → σ → Option σ) : List σ → List σ
  | [] => []
  | [s] => [s]
  | s :: t :: l =>
    match merge s t with
    | some u => coalesce merge (u :: l)
    | none => s :: coalesce merge (t :: l)
termination_by l => l.length

/-- Joining two neighbours leaves one piece that says what they said, and that can be joined with
what comes before only if the first of them could. -/
structure IsMerge (view : σ → ℕ → β) (merge : σ → σ → Option σ) : Prop where
  first_eq : ∀ {s t u}, merge s t = some u → first u = first s
  last_eq : ∀ {s t u}, merge s t = some u → last u = last t
  view_left : ∀ {s t u x}, merge s t = some u → last s + 1 = first t → first s ≤ x → x ≤ last s →
    view u x = view s x
  view_right : ∀ {s t u x}, merge s t = some u → last s + 1 = first t → first t ≤ x → x ≤ last t →
    view u x = view t x
  stable : ∀ {r s t u}, merge s t = some u → merge r s = none → merge r u = none

section

variable {view : σ → ℕ → β} {merge : σ → σ → Option σ} {f : ℕ → β}

/-- **After joining no two neighbours can be joined.** -/
theorem isChain_coalesce (hm : IsMerge view merge) (l : List σ) :
    (coalesce merge l).IsChain (fun s t => merge s t = none)
      ∧ ∀ r s l', l = s :: l' → merge r s = none →
        ∀ t ∈ (coalesce merge l).head?, merge r t = none := by
  induction l using coalesce.induct merge with
  | case1 => exact ⟨by rw [coalesce]; exact .nil, fun r s l' h => nomatch h⟩
  | case2 s =>
    rw [coalesce]
    refine ⟨.singleton s, fun r s' l' h hr t ht => ?_⟩
    obtain ⟨rfl, -⟩ := List.cons.inj h
    cases ht
    exact hr
  | case3 s t l u hu ih =>
    rw [coalesce, hu]
    refine ⟨ih.1, fun r s' l' h hr => ?_⟩
    obtain ⟨rfl, -⟩ := List.cons.inj h
    exact ih.2 r u l rfl (hm.stable hu hr)
  | case4 s t l hnone ih =>
    rw [coalesce, hnone]
    refine ⟨isChain_cons.mpr ⟨ih.2 s t l rfl hnone, ih.1⟩, fun r s' l' h hr t' ht' => ?_⟩
    obtain ⟨rfl, -⟩ := List.cons.inj h
    obtain rfl := Option.some.inj ht'
    exact hr

omit [Piece σ] in
theorem length_coalesce_le (merge : σ → σ → Option σ) (l : List σ) :
    (coalesce merge l).length ≤ l.length := by
  induction l using coalesce.induct merge with
  | case1 => rw [coalesce]
  | case2 s => rw [coalesce]
  | case3 s t l u hu ih =>
    rw [coalesce, hu]
    exact ih.trans (le_succ _)
  | case4 s t l hnone ih =>
    rw [coalesce, hnone]
    exact succ_le_succ ih

/-- Joining keeps the tiling. -/
theorem IsMerge.tiles_coalesce (hm : IsMerge view merge) (h : Tiles a l b) :
    Tiles a (coalesce merge l) b := by
  induction l using coalesce.induct merge generalizing a with
  | case1 | case2 s => rwa [coalesce]
  | case3 s t l u hu ih =>
    obtain ⟨rfl, hs, hst, ht, h⟩ := h
    have hfirst := hm.first_eq hu
    have hlast := hm.last_eq hu
    rw [coalesce, hu]
    exact ih ⟨hfirst, by omega, hlast ▸ h⟩
  | case4 s t l hnone ih =>
    obtain ⟨rfl, hs, h⟩ := h
    rw [coalesce, hnone]
    exact ⟨rfl, hs, ih h⟩

/-- A property of pieces that passes to what neighbours are joined to holds of all pieces after
joining. -/
theorem forall_mem_coalesce (hm : IsMerge view merge)
    (hP : ∀ s t u, merge s t = some u → first s ≤ last s → last s + 1 = first t → P s → P t → P u)
    (h : Tiles a l b) (hl : ∀ s ∈ l, P s) : ∀ s ∈ coalesce merge l, P s := by
  induction l using coalesce.induct merge generalizing a with
  | case1 => rwa [coalesce]
  | case2 s => rwa [coalesce]
  | case3 s t l u hu ih =>
    obtain ⟨rfl, hs, hst, ht, h⟩ := h
    obtain ⟨hPs, hPt, hPl⟩ := (forall_mem_cons.trans (and_congr_right'
      forall_mem_cons)).mp hl
    have hfirst := hm.first_eq hu
    have hlast := hm.last_eq hu
    rw [coalesce, hu]
    exact ih ⟨hfirst, by omega, hlast ▸ h⟩
      (forall_mem_cons.mpr ⟨hP s t u hu hs hst.symm hPs hPt, hPl⟩)
  | case4 s t l hnone ih =>
    obtain ⟨rfl, hs, h⟩ := h
    obtain ⟨hPs, hPl⟩ := forall_mem_cons.mp hl
    rw [coalesce, hnone]
    exact forall_mem_cons.mpr ⟨hPs, ih h hPl⟩

/-- **Joining keeps the tiling, and what it says.** -/
theorem coalesce_spec (hm : IsMerge view merge) (h : Tiles a l b) (hf : Denotes view l f) :
    Tiles a (coalesce merge l) b ∧ Denotes view (coalesce merge l) f := by
  refine ⟨hm.tiles_coalesce h, forall_mem_coalesce hm (fun s t u hu hs hst hfs hft x hx hx' => ?_) h hf⟩
  have hfirst := hm.first_eq hu
  have hlast := hm.last_eq hu
  by_cases hxs : x ≤ last s
  · rw [hm.view_left hu hst (by omega) hxs, hfs x (by omega) hxs]
  · rw [hm.view_right hu hst (by omega) (by omega), hft x (by omega) (by omega)]

end

end Tiling
