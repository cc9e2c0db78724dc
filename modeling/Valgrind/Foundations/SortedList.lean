import Mathlib.Tactic

/-!
# Foundations/SortedList — lists sorted by a key, and where a search cuts them

A list of records is *ordered* when keys increase strictly along it, under a three-way comparison
`ord` of keys.  A search for a key `k` sees of each record only the comparison `ord k (key x)`: its
**cut**.  A cut of an ordered list is `.gt` up to a point and `.lt` after it, with at most one `.eq`
in between (`Ordered.cut`), which is all that searching, inserting and erasing need.
-/

namespace SortedList

open List
open Std (TransCmp OrientedCmp ReflCmp)

variable {κ α : Type}

/-- Keys increase strictly along the list. -/
def Ordered (ord : κ → κ → Ordering) (key : α → κ) (l : List α) : Prop :=
  l.Pairwise fun a b => ord (key a) (key b) = .lt

/-- The search described by `cut` passes from `.gt` to `.lt` at one point of the list. -/
def Cut (cut : α → Ordering) (l : List α) : Prop :=
  l.Pairwise fun a b => cut a ≠ .gt → cut b = .lt

/-! ## The record at a cut -/

namespace Cut

variable {cut : α → Ordering} {l r : List α} {x : α}

section

variable (h : Cut cut (l ++ x :: r))
include h

theorem left : Cut cut l := (pairwise_append.mp h).1

theorem right : Cut cut r := (pairwise_append.mp h).2.1.of_cons

/-- What lies behind a record that is not before the cut lies after it. -/
theorem lt_of_ne_gt (hx : cut x ≠ .gt) : ∀ y ∈ r, cut y = .lt :=
  fun _ hy => rel_of_pairwise_cons (pairwise_append.mp h).2.1 hy hx

/-- What lies in front of a record that is not after the cut lies before it. -/
theorem gt_of_ne_lt (hx : cut x ≠ .lt) : ∀ y ∈ l, cut y = .gt := by
  intro y hy
  by_contra hgt
  exact hx ((pairwise_append.mp h).2.2 y hy x mem_cons_self hgt)

/-- A search that turns left leaves the record and all behind it after the cut. -/
theorem lt_of_lt (hx : cut x = .lt) : ∀ y ∈ x :: r, cut y = .lt :=
  forall_mem_cons.mpr ⟨hx, h.lt_of_ne_gt (by simp [hx])⟩

/-- A search that turns right leaves the record and all in front of it before the cut. -/
theorem gt_of_gt (hx : cut x = .gt) : ∀ y ∈ l ++ [x], cut y = .gt :=
  forall_mem_append.mpr ⟨h.gt_of_ne_lt (by simp [hx]), forall_mem_singleton.mpr hx⟩

end

end Cut

/-! ## Ordered lists -/

namespace Ordered

variable {ord : κ → κ → Ordering} {key : α → κ} {l r : List α} {a b : α}

theorem sublist (h : Ordered ord key r) (hl : l.Sublist r) : Ordered ord key l :=
  List.Pairwise.sublist hl h

/-- Order is a matter of keys. -/
theorem iff_keys : Ordered ord key l ↔ (l.map key).Pairwise fun k k' => ord k k' = .lt := by
  rw [Ordered, pairwise_map]

/-- A record may be replaced by one with its key. -/
theorem replace (h : Ordered ord key (l ++ a :: r)) (hab : key b = key a) :
    Ordered ord key (l ++ b :: r) := by
  rw [iff_keys] at h ⊢
  simpa [hab] using h

variable [TransCmp ord]

/-- **A search cuts an ordered list at one point.** -/
theorem cut (h : Ordered ord key l) (k : κ) : Cut (fun x => ord k (key x)) l := by
  refine h.imp fun {a b} hab hk => ?_
  cases hka : ord k (key a) with
  | lt => exact TransCmp.lt_trans hka hab
  | eq => exact TransCmp.lt_of_eq_of_lt hka hab
  | gt => exact absurd hka hk

/-- **A record put at its cut keeps the list ordered.** -/
theorem insert (h : Ordered ord key (l ++ r)) (hl : ∀ x ∈ l, ord (key a) (key x) = .gt)
    (hr : ∀ x ∈ r, ord (key a) (key x) = .lt) : Ordered ord key (l ++ a :: r) := by
  obtain ⟨hol, hor, hlr⟩ := pairwise_append.mp h
  refine pairwise_append.mpr ⟨hol, pairwise_cons.mpr ⟨hr, hor⟩, fun x hx y hy => ?_⟩
  rcases mem_cons.mp hy with rfl | hy
  · exact OrientedCmp.lt_of_gt (hl x hx)
  · exact hlr x hx y hy

/-- Two records of an ordered list with equal keys are the same record. -/
theorem eq_of_eq (h : Ordered ord key l) (ha : a ∈ l) (hb : b ∈ l)
    (hab : ord (key a) (key b) = .eq) : a = b := by
  obtain ⟨s, t, rfl⟩ := append_of_mem hb
  have hcut := h.cut (key a)
  have hb' : ord (key a) (key b) ≠ .lt ∧ ord (key a) (key b) ≠ .gt := by simp [hab]
  have haa : ord (key a) (key a) = .eq := ReflCmp.compare_self
  rcases mem_append.mp ha with ha | ha
  · rw [hcut.gt_of_ne_lt hb'.1 a ha] at haa
    cases haa
  · rcases mem_cons.mp ha with rfl | ha
    · rfl
    · rw [hcut.lt_of_ne_gt hb'.2 a ha] at haa
      cases haa

/-- A key equal to that of one record differs from all others. -/
theorem ne_of_eq (h : Ordered ord key (l ++ a :: r)) {k : κ} (hk : ord k (key a) = .eq) :
    ∀ x ∈ l ++ r, ord k (key x) ≠ .eq := by
  intro x hx
  have hcut := h.cut k
  rcases mem_append.mp hx with hx | hx
  · simp [hcut.gt_of_ne_lt (by simp [hk]) x hx]
  · simp [hcut.lt_of_ne_gt (by simp [hk]) x hx]

/-- A search for a key sees one record of an ordered list, or the others. -/
theorem exists_eq_iff (h : Ordered ord key (l ++ a :: r)) (k : κ) (p : α → Prop) :
    (∃ x ∈ l ++ a :: r, ord k (key x) = .eq ∧ p x)
      ↔ if ord k (key a) = .eq then p a else ∃ x ∈ l ++ r, ord k (key x) = .eq ∧ p x := by
  have hmem : ∀ x, x ∈ l ++ a :: r ↔ x = a ∨ x ∈ l ++ r := fun x => by
    simp only [mem_append, mem_cons]
    tauto
  split_ifs with hk
  · refine ⟨fun ⟨x, hx, hkx, hp⟩ => ?_, fun hp => ⟨a, by simp, hk, hp⟩⟩
    rcases (hmem x).mp hx with rfl | hx
    · exact hp
    · exact absurd hkx (h.ne_of_eq hk x hx)
  · refine ⟨fun ⟨x, hx, hkx, hp⟩ => ?_, fun ⟨x, hx, hp⟩ => ⟨x, (hmem x).mpr (.inr hx), hp⟩⟩
    rcases (hmem x).mp hx with rfl | hx
    · exact absurd hkx hk
    · exact ⟨x, hx, hkx, hp⟩

/-- An ordered list has no key twice. -/
theorem nodup_keys (h : Ordered ord key l) : (l.map key).Nodup := by
  refine (iff_keys.mp h).imp fun {k k'} hkk' heq => ?_
  have hself : ord k' k' = .eq := ReflCmp.compare_self
  rw [heq, hself] at hkk'
  cases hkk'

theorem nodup (h : Ordered ord key l) : l.Nodup := h.nodup_keys.of_map

/-- A record of an ordered list has one position. -/
theorem append_cons_inj {l' r' : List α} (h : Ordered ord key (l ++ a :: r))
    (heq : l ++ a :: r = l' ++ a :: r') : l = l' ∧ r = r' := by
  obtain ⟨-, har, hl⟩ := nodup_append.mp h.nodup
  have hnl : a ∉ l := fun ha => hl a ha a mem_cons_self rfl
  have hnr : a ∉ r := (nodup_cons.mp har).1
  obtain ⟨hll, -, hrr⟩ := (append_cons_inj_of_notMem hnl hnr).mp heq
  exact ⟨hll, hrr⟩

end Ordered

end SortedList
