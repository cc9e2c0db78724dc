import Valgrind.Core.LibcAssert

/-!
# Aspacemgr/Segnames — `m_aspacemgr/aspacemgr-segnames.c`: the table of segment names

The table is a string of slots; a slot holds a name with its reference count, or is on the chain of
free slots.  A segment refers to its name by the index of the slot.  Here a slot is a record: its
overhead bytes are the fields `size` and `refcount`, and the chain is the list of its indices.

**Counting** (`amIncRefcount_backs`, `amDecRefcount_backs`): as long as every index is decremented
at most as often as it was handed out, no count runs out, and no slot that is still referred to is
freed. -/

namespace Valgrind.Aspacemgr

open List

/-! ## The code -/

/-- The overhead of a slot: its reference count and its size. -/
def overhead : ℕ := 4

/-- A count that got there is frozen. -/
def maxRefcount : ℕ := 0x7fff

def maxSlotsize : ℕ := 0xffff

/-- `VG_TABLE_SIZE`. -/
def tableSize : ℕ := 1000000

/-- A slot of the table; a free slot has no reference count. -/
structure Slot where
  ix : ℕ
  size : ℕ
  refcount : Option ℕ
  name : List Char
deriving DecidableEq, Repr

/-- `segnames`, `segnames_used` and `freeslot_chain`. -/
structure Segnames where
  slots : List Slot
  used : ℕ
  freeslotChain : List ℕ
deriving DecidableEq, Repr

namespace Segnames

/-- `ML_(am_segnames_init)`. -/
def amSegnamesInit : Segnames := ⟨[], overhead, []⟩

/-- The slot at an index. -/
def slot? (t : Segnames) (ix : ℕ) : Option Slot := t.slots.find? (·.ix = ix)

/-- Overwrite the slot at an index. -/
def update (t : Segnames) (ix : ℕ) (f : Slot → Slot) : Segnames :=
  { t with slots := t.slots.map fun s => if s.ix = ix then f s else s }

/-- The reference count of a slot that is not free. -/
def refcountOf (t : Segnames) (ix : ℕ) : Option ℕ := (t.slot? ix).bind Slot.refcount

/-- `get_refcount`: the slot must not be free. -/
def getRefcount (t : Segnames) (ix : ℕ) : Except Abort ℕ := do
  vgAssert (overhead ≤ ix ∧ ix ≤ t.used)
  match t.refcountOf ix with
  | some rc => return rc
  | none => .error .assertion

/-- `put_refcount`. -/
def putRefcount (t : Segnames) (ix rc : ℕ) : Except Abort Segnames := do
  vgAssert (rc ≤ maxRefcount)
  return t.update ix ({ · with refcount := some rc })

/-- `inc_refcount`. -/
def incRefcount (t : Segnames) (ix : ℕ) : Except Abort Segnames := do
  let rc ← t.getRefcount ix
  if rc ≠ maxRefcount then t.putRefcount ix (rc + 1) else return t

/-- Put a slot in front of the chain of free slots. -/
def chainSlot (t : Segnames) (ix : ℕ) : Segnames :=
  { t.update ix ({ · with refcount := none }) with freeslotChain := ix :: t.freeslotChain }

/-- `dec_refcount`. -/
def decRefcount (t : Segnames) (ix : ℕ) : Except Abort Segnames := do
  let rc ← t.getRefcount ix
  vgAssert (0 < rc)
  if rc = maxRefcount then return t
  else if rc - 1 ≠ 0 then t.putRefcount ix (rc - 1)
  else return t.chainSlot ix

/-- `ML_(am_inc_refcount)`; no index is -1. -/
def amIncRefcount (t : Segnames) : Option ℕ → Except Abort Segnames
  | none => .ok t
  | some ix => t.incRefcount ix

/-- `ML_(am_dec_refcount)`. -/
def amDecRefcount (t : Segnames) : Option ℕ → Except Abort Segnames
  | none => .ok t
  | some ix => t.decRefcount ix

/-- Take a slot from the chain, for a name. -/
def reuseSlot (t : Segnames) (ix : ℕ) (name : List Char) : Segnames :=
  { t.update ix ({ · with refcount := some 0, name := name }) with
    freeslotChain := t.freeslotChain.erase ix }

/-- Add a slot behind the others; an empty name still gets a payload of two bytes. -/
def appendSlot (t : Segnames) (name : List Char) : Except Abort (Option ℕ × Segnames) :=
  let len := max name.length 1
  let need := len + 1 + overhead
  if need > tableSize - t.used then .ok (none, t)
  else do
    vgAssert (len + 1 ≤ maxSlotsize)
    return (some t.used, { t with slots := t.slots ++ [⟨t.used, len + 1, some 0, name⟩],
                                  used := t.used + need })

/-- `ML_(am_allocate_segname)`: the slot that has the name, whose count goes up; else the first slot
of the chain that is large enough; else a new one; else none. -/
def amAllocateSegname (t : Segnames) (name : List Char) : Except Abort (Option ℕ × Segnames) :=
  match t.slots.find? fun s => s.refcount.isSome ∧ s.name = name with
  | some s => do return (some s.ix, ← t.incRefcount s.ix)
  | none =>
    match t.freeslotChain.find? fun ix => (t.slot? ix).any fun s => name.length + 1 ≤ s.size with
    | some ix => .ok (some ix, t.reuseSlot ix name)
    | none => t.appendSlot name

/-- `ML_(am_sane_segname)`: it does not look whether the slot is free. -/
def amSaneSegname (t : Segnames) : Option ℕ → Bool
  | none => true
  | some ix => overhead ≤ ix && ix < t.used

/-- The name at an index, as `ML_(am_get_segname)` gives it for a slot that is not free. -/
def nameOf (t : Segnames) (ix : ℕ) : Option (List Char) :=
  (t.slot? ix).bind fun s => s.refcount.map fun _ => s.name

/-! ## Reading the table after an update -/

section Update

variable {t : Segnames} {ix k r : ℕ} {f : Slot → Slot}

theorem ix_of_slot? {s : Slot} (h : t.slot? k = some s) : s.ix = k := by
  simpa using find?_some h

theorem slot?_of_mem (hnodup : (t.slots.map Slot.ix).Nodup) {s : Slot} (hs : s ∈ t.slots) :
    t.slot? s.ix = some s := by
  have hsome : (t.slot? s.ix).isSome := by
    rw [slot?, find?_isSome]
    exact ⟨s, hs, by simp⟩
  obtain ⟨s', hs'⟩ := Option.isSome_iff_exists.mp hsome
  rw [hs', inj_on_of_nodup_map hnodup (mem_of_find?_eq_some hs') hs (ix_of_slot? hs')]

theorem slot?_update (hf : ∀ s, (f s).ix = s.ix) (k : ℕ) :
    (t.update ix f).slot? k = if k = ix then (t.slot? k).map f else t.slot? k := by
  have hix : ∀ s : Slot, (if s.ix = ix then f s else s).ix = s.ix := by
    intro s
    split_ifs
    · exact hf s
    · rfl
  rw [slot?, update, find?_map]
  have hcomp : ((fun s : Slot => decide (s.ix = k)) ∘ fun s => if s.ix = ix then f s else s)
      = fun s => decide (s.ix = k) := by
    funext s
    rw [Function.comp_apply, hix]
  rw [hcomp]
  change (t.slot? k).map _ = _
  cases h : t.slot? k with
  | none => simp
  | some s =>
    have hs := ix_of_slot? h
    split_ifs with hk
    · simp [hs, hk]
    · simp [hs, hk]

theorem map_ix_update (hf : ∀ s, (f s).ix = s.ix) :
    (t.update ix f).slots.map Slot.ix = t.slots.map Slot.ix := by
  rw [update, map_map]
  refine map_congr_left fun s _ => ?_
  rw [Function.comp_apply]
  split_ifs
  · exact hf s
  · rfl

theorem exists_mem_of_update (hf : ∀ s, (f s).ix = s.ix) {s' : Slot}
    (h : s' ∈ (t.update ix f).slots) : ∃ s ∈ t.slots, s'.ix = s.ix ∧ (s' = s ∨ s' = f s) := by
  obtain ⟨s, hs, rfl⟩ := mem_map.mp h
  refine ⟨s, hs, ?_⟩
  split_ifs
  · exact ⟨hf s, .inr rfl⟩
  · exact ⟨rfl, .inl rfl⟩

theorem refcountOf_eq_some : t.refcountOf k = some r
    ↔ ∃ s, t.slot? k = some s ∧ s.refcount = some r := Option.bind_eq_some_iff

theorem nameOf_eq_some {n : List Char} : t.nameOf k = some n
    ↔ ∃ s, t.slot? k = some s ∧ s.refcount.isSome ∧ s.name = n := by
  rw [nameOf, Option.bind_eq_some_iff]
  refine exists_congr fun s => and_congr_right' ?_
  cases s.refcount <;> simp

/-- A slot that is not free has a count, and a name. -/
theorem isSome_nameOf : (t.nameOf k).isSome = (t.refcountOf k).isSome := by
  rw [nameOf, refcountOf]
  cases t.slot? k with
  | none => rfl
  | some s => simp

/-- Counting up and down writes one count. -/
theorem refcountOf_update_refcount (o : Option ℕ) (hk : (t.refcountOf ix).isSome) (k : ℕ) :
    (t.update ix ({ · with refcount := o })).refcountOf k
      = if k = ix then o else t.refcountOf k := by
  rw [refcountOf, slot?_update (f := ({ · with refcount := o })) fun _ => rfl]
  split_ifs with h
  · subst h
    obtain ⟨r, hr⟩ := Option.isSome_iff_exists.mp hk
    obtain ⟨s, hs, -⟩ := refcountOf_eq_some.mp hr
    rw [hs]
    rfl
  · rfl

/-- …and the names stay, except at a slot that is freed. -/
theorem nameOf_update_refcount (o : Option ℕ) (hk : (t.refcountOf ix).isSome) (k : ℕ) :
    (t.update ix ({ · with refcount := o })).nameOf k
      = if k = ix ∧ o = none then none else t.nameOf k := by
  rw [nameOf, slot?_update (f := ({ · with refcount := o })) fun _ => rfl]
  by_cases h : k = ix
  · subst h
    obtain ⟨r, hr⟩ := Option.isSome_iff_exists.mp hk
    obtain ⟨s, hs, hsr⟩ := refcountOf_eq_some.mp hr
    cases o with
    | none => simp [hs]
    | some r' => simp [hs, hsr, nameOf]
  · simp [h, nameOf]

theorem getRefcount_eq (h : t.refcountOf ix = some r) (hlo : overhead ≤ ix) (hhi : ix ≤ t.used) :
    t.getRefcount ix = .ok r := by
  rw [getRefcount, vgAssert_bind ⟨hlo, hhi⟩, h]
  rfl

end Update

/-! ## Tables -/

/-- The slots have different indices inside the table and counts that fit; two slots that are not
free have different names; the slots of the chain are free. -/
structure Wf (t : Segnames) : Prop where
  nodup : (t.slots.map Slot.ix).Nodup
  bounds : ∀ s ∈ t.slots, overhead ≤ s.ix ∧ s.ix < t.used
  used : overhead ≤ t.used
  count_le : ∀ s ∈ t.slots, ∀ r, s.refcount = some r → r ≤ maxRefcount
  unique : ∀ j k n, t.nameOf j = some n → t.nameOf k = some n → j = k
  chain : ∀ k ∈ t.freeslotChain, ∃ s, t.slot? k = some s ∧ s.refcount = none
  chain_nodup : t.freeslotChain.Nodup

theorem wf_init : Wf amSegnamesInit where
  nodup := .nil
  bounds _ h := absurd h not_mem_nil
  used := le_rfl
  count_le _ h := absurd h not_mem_nil
  unique _ _ _ h := nomatch h
  chain _ h := absurd h not_mem_nil
  chain_nodup := .nil

/-- Every reference has its count: an index that is referred to `c` times is a slot that is not
free, and its count is `c` or more, or frozen. -/
def Backs (t : Segnames) (c : ℕ → ℕ) : Prop :=
  ∀ k, 0 < c k → ∃ r, t.refcountOf k = some r ∧ (c k ≤ r ∨ r = maxRefcount)

/-- One more reference. -/
def refs (o : Option ℕ) (k : ℕ) : ℕ := if o = some k then 1 else 0

theorem refs_of_ne {j k : ℕ} (h : j ≠ k) : refs (some k) j = 0 :=
  if_neg fun heq => h (Option.some.inj heq).symm

namespace Wf

variable {t : Segnames} {ix k r : ℕ} {o : Option ℕ}

theorem bounds_of_slot? (h : Wf t) {s : Slot} (hs : t.slot? k = some s) :
    overhead ≤ k ∧ k < t.used :=
  ix_of_slot? hs ▸ h.bounds s (mem_of_find?_eq_some hs)

/-- The index of a slot that is not free is sane. -/
theorem saneSegname (h : Wf t) (hlive : ∀ k, o = some k → (t.refcountOf k).isSome) :
    t.amSaneSegname o := by
  cases o with
  | none => rfl
  | some k =>
    obtain ⟨r, hr⟩ := Option.isSome_iff_exists.mp (hlive k rfl)
    obtain ⟨s, hs, -⟩ := refcountOf_eq_some.mp hr
    have hb := h.bounds_of_slot? hs
    simp [amSaneSegname, hb.1, hb.2]

theorem getRefcount (h : Wf t) (hr : t.refcountOf k = some r) :
    t.getRefcount k = .ok r ∧ r ≤ maxRefcount := by
  obtain ⟨s, hs, hsr⟩ := refcountOf_eq_some.mp hr
  have hb := h.bounds_of_slot? hs
  exact ⟨getRefcount_eq hr hb.1 hb.2.le, h.count_le s (mem_of_find?_eq_some hs) r hsr⟩

/-- A slot of the chain is not counted. -/
theorem not_mem_chain (h : Wf t) (hlive : (t.refcountOf k).isSome) : k ∉ t.freeslotChain := by
  intro hk
  obtain ⟨s, hs, hfree⟩ := h.chain k hk
  rw [refcountOf, hs, Option.bind_some, hfree] at hlive
  exact Bool.false_ne_true hlive

/-- Writing a count keeps a table well formed. -/
theorem update_refcount (h : Wf t) (hle : ∀ r, o = some r → r ≤ maxRefcount)
    (hlive : (t.refcountOf ix).isSome) : Wf (t.update ix ({ · with refcount := o })) := by
  have hf : ∀ s : Slot, ({ s with refcount := o } : Slot).ix = s.ix := fun _ => rfl
  refine ⟨(congrArg List.Nodup (map_ix_update hf)).mpr h.nodup, fun s' hs' => ?_, h.used,
    fun s' hs' r hr => ?_,
    fun j k n hj hk => ?_, fun k hk => ?_, h.chain_nodup⟩
  · obtain ⟨s, hs, hix, -⟩ := exists_mem_of_update hf hs'
    exact hix ▸ h.bounds s hs
  · obtain ⟨s, hs, -, rfl | rfl⟩ := exists_mem_of_update hf hs'
    · exact h.count_le s' hs r hr
    · exact hle r hr
  · rw [nameOf_update_refcount o hlive] at hj hk
    exact h.unique j k n (by grind) (by grind)
  · obtain ⟨s, hs, hfree⟩ := h.chain k hk
    have hne : k ≠ ix := fun heq => h.not_mem_chain hlive (heq ▸ hk)
    exact ⟨s, by rw [slot?_update hf, if_neg hne, hs], hfree⟩

theorem chainSlot (h : Wf t) (hlive : (t.refcountOf ix).isSome) : Wf (t.chainSlot ix) := by
  have hup := h.update_refcount (o := none) (fun _ h => nomatch h) hlive
  refine ⟨hup.nodup, hup.bounds, hup.used, hup.count_le, hup.unique, fun k hk => ?_,
    nodup_cons.mpr ⟨h.not_mem_chain hlive, h.chain_nodup⟩⟩
  rcases mem_cons.mp hk with rfl | hmem
  · obtain ⟨r, hr⟩ := Option.isSome_iff_exists.mp hlive
    obtain ⟨s, hs, -⟩ := refcountOf_eq_some.mp hr
    refine ⟨{ s with refcount := none }, ?_, rfl⟩
    change (t.update k ({ · with refcount := none })).slot? k = _
    rw [slot?_update (f := ({ · with refcount := none })) fun _ => rfl, if_pos rfl, hs]
    rfl
  · exact hup.chain k hmem

end Wf

/-! ## Counting up and down -/

/-- The table has the same extent, and no slot was freed. -/
structure Keeps (t t' : Segnames) : Prop where
  used : t'.used = t.used
  live : ∀ k, (t.refcountOf k).isSome → (t'.refcountOf k).isSome

theorem Keeps.refl (t : Segnames) : Keeps t t := ⟨rfl, fun _ => id⟩

theorem Keeps.trans {t t' t'' : Segnames} (h : Keeps t t') (h' : Keeps t' t'') : Keeps t t'' :=
  ⟨h'.used.trans h.used, fun k hk => h'.live k (h.live k hk)⟩

section

variable {t t' : Segnames} {k r : ℕ} {o : Option ℕ} {c : ℕ → ℕ}

theorem Backs.mono {c' : ℕ → ℕ} (h : Backs t c) (hc : ∀ k, c' k ≤ c k) : Backs t c' := by
  intro k hk
  obtain ⟨r, hr, hle⟩ := h k (hk.trans_le (hc k))
  exact ⟨r, hr, hle.imp_left (hc k).trans⟩

/-- Counting up a slot that is not free. -/
theorem incRefcount_backs (hwf : Wf t) (hr : t.refcountOf k = some r) (h : Backs t c) :
    ∃ t', t.incRefcount k = .ok t' ∧ Wf t' ∧ Keeps t t'
      ∧ Backs t' (c + refs (some k)) := by
  obtain ⟨hget, hle⟩ := hwf.getRefcount hr
  have hlive : (t.refcountOf k).isSome := by rw [hr]; rfl
  rw [incRefcount, hget, ok_bind]
  by_cases hmax : r = maxRefcount
  · rw [if_neg (not_not.mpr hmax)]
    refine ⟨t, rfl, hwf, .refl t, fun j hj => ?_⟩
    by_cases hjk : j = k
    · exact ⟨r, hjk ▸ hr, .inr hmax⟩
    · simp only [Pi.add_apply, refs_of_ne hjk, add_zero] at hj ⊢
      exact h j hj
  · have hlt : r + 1 ≤ maxRefcount := Nat.lt_of_le_of_ne hle hmax
    rw [if_pos hmax, putRefcount, vgAssert_bind hlt]
    refine ⟨_, rfl, hwf.update_refcount (by rintro _ ⟨⟩; exact hlt) hlive, ⟨rfl, fun j hj => ?_⟩,
      fun j hj => ?_⟩
    · rw [refcountOf_update_refcount _ hlive]
      split_ifs
      · rfl
      · exact hj
    rw [refcountOf_update_refcount _ hlive]
    by_cases hjk : j = k
    · subst hjk
      have hrefs : refs (some j) j = 1 := if_pos rfl
      refine ⟨r + 1, if_pos rfl, .inl ?_⟩
      rw [Pi.add_apply, hrefs]
      by_cases hcj : 0 < c j
      · obtain ⟨r', hr', hle' | hmax'⟩ := h j hcj
        · obtain rfl := Option.some.inj (hr.symm.trans hr')
          omega
        · obtain rfl := Option.some.inj (hr.symm.trans hr')
          exact absurd hmax' hmax
      · omega
    · simp only [Pi.add_apply, refs_of_ne hjk, add_zero, if_neg hjk] at hj ⊢
      exact h j hj

/-- Counting down a reference. -/
theorem decRefcount_backs (hwf : Wf t) (h : Backs t (c + refs (some k))) :
    ∃ t', t.decRefcount k = .ok t' ∧ Wf t' ∧ t'.used = t.used ∧ Backs t' c := by
  have hone : refs (some k) k = 1 := if_pos rfl
  obtain ⟨r, hr, hcr⟩ := h k (by rw [Pi.add_apply]; omega)
  rw [Pi.add_apply, hone] at hcr
  obtain ⟨hget, hle⟩ := hwf.getRefcount hr
  have hlive : (t.refcountOf k).isSome := by rw [hr]; rfl
  have hpos : 0 < r := by
    rcases hcr with hcr | rfl
    · omega
    · decide
  have hother : ∀ j, j ≠ k → 0 < c j →
      ∃ r', t.refcountOf j = some r' ∧ (c j ≤ r' ∨ r' = maxRefcount) := by
    intro j hjk hj
    have hback := h j (by rw [Pi.add_apply]; omega)
    rwa [Pi.add_apply, refs_of_ne hjk, add_zero] at hback
  rw [decRefcount, hget, ok_bind, vgAssert_bind hpos]
  by_cases hmax : r = maxRefcount
  · rw [if_pos hmax]
    refine ⟨t, rfl, hwf, rfl, fun j hj => ?_⟩
    by_cases hjk : j = k
    · exact ⟨r, hjk ▸ hr, .inr hmax⟩
    · exact hother j hjk hj
  have hck : c k + 1 ≤ r := by
    rcases hcr with hcr | hcr
    · exact hcr
    · exact absurd hcr hmax
  rw [if_neg hmax]
  by_cases hlast : r - 1 ≠ 0
  · rw [if_pos hlast, putRefcount, vgAssert_bind (by omega)]
    refine ⟨_, rfl, hwf.update_refcount (by rintro _ ⟨⟩; omega) hlive, rfl, fun j hj => ?_⟩
    rw [refcountOf_update_refcount _ hlive]
    by_cases hjk : j = k
    · subst hjk
      exact ⟨r - 1, if_pos rfl, .inl (by omega)⟩
    · rw [if_neg hjk]
      exact hother j hjk hj
  · rw [if_neg hlast]
    refine ⟨_, rfl, hwf.chainSlot hlive, rfl, fun j hj => ?_⟩
    have hjk : j ≠ k := by
      rintro rfl
      omega
    change ∃ r', (t.update k ({ · with refcount := none })).refcountOf j = some r' ∧ _
    rw [refcountOf_update_refcount _ hlive, if_neg hjk]
    exact hother j hjk hj

/-- **A reference more**: a name that is referred to already, or no name. -/
theorem amIncRefcount_backs (hwf : Wf t) (ho : ∀ k, o = some k → (t.refcountOf k).isSome)
    (h : Backs t c) :
    ∃ t', t.amIncRefcount o = .ok t' ∧ Wf t' ∧ Keeps t t' ∧ Backs t' (c + refs o) := by
  cases o with
  | none => exact ⟨t, rfl, hwf, .refl t, h.mono fun _ => le_rfl⟩
  | some k =>
    obtain ⟨r, hr⟩ := Option.isSome_iff_exists.mp (ho k rfl)
    exact incRefcount_backs hwf hr h

/-- **A reference less.** -/
theorem amDecRefcount_backs (hwf : Wf t) (h : Backs t (c + refs o)) :
    ∃ t', t.amDecRefcount o = .ok t' ∧ Wf t' ∧ t'.used = t.used ∧ Backs t' c := by
  cases o with
  | none => exact ⟨t, rfl, hwf, rfl, h.mono fun _ => le_rfl⟩
  | some k => exact decRefcount_backs hwf h

end

/-! ## Allocating a name -/

section

variable {t t' : Segnames} {k ix : ℕ} {name : List Char} {c : ℕ → ℕ}

/-- What an allocation leaves: the references are still counted, and the index it returns is that of
a slot that is not free. -/
structure Allocated (t : Segnames) (c : ℕ → ℕ) (o : Option ℕ) (t' : Segnames) : Prop where
  wf : Wf t'
  used_le : t.used ≤ t'.used
  backs : Backs t' c
  live : ∀ k, o = some k → (t'.refcountOf k).isSome

theorem nameOf_eq_none_of_find?
    (h : t.slots.find? (fun s => s.refcount.isSome ∧ s.name = name) = none)
    (k : ℕ) : t.nameOf k ≠ some name := by
  intro hk
  obtain ⟨s, hs, hlive, hname⟩ := nameOf_eq_some.mp hk
  have hno := find?_eq_none.mp h s (mem_of_find?_eq_some hs)
  simp [hlive, hname] at hno

/-- The name is put into a slot that was free, or new. -/
theorem Allocated.of_slot? (new : Slot) (hwf : Wf t) (h : Backs t c)
    (hno : ∀ k, t.nameOf k ≠ some name) (hfree : t.refcountOf ix = none)
    (hslot : ∀ k, t'.slot? k = if k = ix then some new else t.slot? k)
    (hcount : new.refcount = some 0) (hname : new.name = name)
    (hnodup : (t'.slots.map Slot.ix).Nodup) (hix : overhead ≤ ix ∧ ix < t'.used)
    (hused : t.used ≤ t'.used) (hchain : t'.freeslotChain.Nodup)
    (hsub : ∀ k ∈ t'.freeslotChain, k ≠ ix ∧ k ∈ t.freeslotChain) :
    Allocated t c (some ix) t' := by
  have hmem : ∀ s ∈ t'.slots, s.ix = ix ∧ s = new ∨ t.slot? s.ix = some s := by
    intro s hs
    have hs' := slot?_of_mem hnodup hs
    rw [hslot] at hs'
    split_ifs at hs' with hk
    · exact .inl ⟨hk, (Option.some.inj hs').symm⟩
    · exact .inr hs'
  have hcount' : ∀ k, t'.refcountOf k = if k = ix then some 0 else t.refcountOf k := by
    intro k
    rw [refcountOf, hslot, ← hcount]
    split_ifs <;> rfl
  have hname' : ∀ k, t'.nameOf k = if k = ix then some name else t.nameOf k := by
    intro k
    rw [nameOf, hslot]
    split_ifs
    · simp [hcount, hname]
    · rfl
  refine ⟨⟨hnodup, fun s hs => ?_, hwf.used.trans hused, fun s hs r hr => ?_,
    fun j k n hj hk => ?_, fun k hk => ?_, hchain⟩, hused, fun k hk => ?_, fun k hk => ?_⟩
  · rcases hmem s hs with ⟨hs, -⟩ | hs
    · exact hs ▸ hix
    · exact (hwf.bounds_of_slot? hs).imp_right hused.trans_lt'
  · rcases hmem s hs with ⟨-, rfl⟩ | hs
    · obtain rfl := Option.some.inj (hcount.symm.trans hr)
      exact zero_le
    · exact hwf.count_le s (mem_of_find?_eq_some hs) r hr
  · rw [hname'] at hj hk
    split_ifs at hj hk with hj' hk' hk'
    · exact hj'.trans hk'.symm
    · exact absurd (hk.trans hj.symm) (hno k)
    · exact absurd (hj.trans hk.symm) (hno j)
    · exact hwf.unique j k n hj hk
  · rw [hslot, if_neg (hsub k hk).1]
    exact hwf.chain k (hsub k hk).2
  · obtain ⟨r, hr, hle⟩ := h k hk
    have hne : k ≠ ix := by
      rintro rfl
      exact nomatch hfree.symm.trans hr
    exact ⟨r, by rw [hcount', if_neg hne, hr], hle⟩
  · rw [hcount', if_pos (Option.some.inj hk).symm]
    rfl

theorem reuseSlot_spec (hwf : Wf t) (h : Backs t c) (hno : ∀ k, t.nameOf k ≠ some name)
    (hix : ix ∈ t.freeslotChain) : Allocated t c (some ix) (t.reuseSlot ix name) := by
  have hf : ∀ s : Slot, ({ s with refcount := some 0, name := name } : Slot).ix = s.ix :=
    fun _ => rfl
  obtain ⟨s, hs, hfree⟩ := hwf.chain ix hix
  refine .of_slot? { s with refcount := some 0, name := name } hwf h hno ?_ (fun k => ?_)
    rfl rfl ((congrArg List.Nodup (map_ix_update hf)).mpr hwf.nodup) (hwf.bounds_of_slot? hs) le_rfl
    (hwf.chain_nodup.erase ix) fun k hk => hwf.chain_nodup.mem_erase_iff.mp hk
  · rw [refcountOf, hs, Option.bind_some, hfree]
  · refine (slot?_update hf k).trans (if_ctx_congr Iff.rfl (fun hk => ?_) fun _ => rfl)
    rw [hk, hs]
    rfl

theorem appendSlot_spec (hwf : Wf t) (h : Backs t c) (hno : ∀ k, t.nameOf k ≠ some name)
    (hlen : name.length < 4096) : ∃ o t', t.appendSlot name = .ok (o, t') ∧ Allocated t c o t' := by
  rw [appendSlot]
  split_ifs with hfull
  · exact ⟨none, t, rfl, hwf, le_rfl, h, fun _ h => nomatch h⟩
  have hsize : max name.length 1 + 1 ≤ maxSlotsize := by
    rw [maxSlotsize]
    omega
  rw [vgAssert_bind hsize]
  have hfresh : ∀ s ∈ t.slots, s.ix ≠ t.used := fun s hs => (hwf.bounds s hs).2.ne
  have hnone : t.slot? t.used = none :=
    find?_eq_none.mpr fun s hs => by simpa using hfresh s hs
  have hused : t.used < t.used + (max name.length 1 + 1 + overhead) := by omega
  refine ⟨_, _, rfl, .of_slot? ⟨t.used, max name.length 1 + 1, some 0, name⟩ hwf h hno
    (by rw [refcountOf, hnone]; rfl) (fun k => ?_) rfl rfl ?_ ⟨hwf.used, hused⟩ hused.le
    hwf.chain_nodup fun k hk => ?_⟩
  · rw [slot?, find?_append]
    split_ifs with hk
    · rw [hk, show t.slots.find? _ = none from hnone]
      simp
    · rw [find?_singleton, if_neg (by simpa using Ne.symm hk), Option.or_none]
      rfl
  · rw [map_append, map_singleton, nodup_append]
    refine ⟨hwf.nodup, nodup_singleton _, fun i hi j hj => ?_⟩
    obtain ⟨s, hs, rfl⟩ := mem_map.mp hi
    rw [mem_singleton.mp hj]
    exact hfresh s hs
  · obtain ⟨s, hs, -⟩ := hwf.chain k hk
    exact ⟨(hwf.bounds_of_slot? hs).2.ne, hk⟩

/-- **Allocating a name** never fails, and returns the slot that has the name if there is one. -/
theorem amAllocateSegname_spec (hwf : Wf t) (h : Backs t c) (hlen : name.length < 4096) :
    ∃ o t', t.amAllocateSegname name = .ok (o, t') ∧ Allocated t c o t'
      ∧ ∀ k, t.nameOf k = some name → o = some k := by
  rw [amAllocateSegname]
  cases hfind : t.slots.find? fun s => s.refcount.isSome ∧ s.name = name with
  | some s =>
    obtain ⟨hlive, hname⟩ : s.refcount.isSome ∧ s.name = name := by
      simpa using find?_some hfind
    obtain ⟨r, hr⟩ := Option.isSome_iff_exists.mp hlive
    have hslot := slot?_of_mem hwf.nodup (mem_of_find?_eq_some hfind)
    have hcount : t.refcountOf s.ix = some r := refcountOf_eq_some.mpr ⟨s, hslot, hr⟩
    obtain ⟨t', hinc, hwf', hkeeps, hback⟩ := incRefcount_backs hwf hcount h
    refine ⟨some s.ix, t', by simp only [hinc, ok_bind, pure_eq_ok],
      ⟨hwf', hkeeps.used.ge, hback.mono fun k => Nat.le_add_right _ _, fun k hk => ?_⟩,
      fun k hk => ?_⟩
    · cases hk
      obtain ⟨r', hr', -⟩ := hback s.ix (by simp [refs])
      rw [hr']
      rfl
    · rw [hwf.unique k s.ix name hk (nameOf_eq_some.mpr ⟨s, hslot, hlive, hname⟩)]
  | none =>
    have hno := nameOf_eq_none_of_find? hfind
    dsimp only
    cases hfree : t.freeslotChain.find? fun ix =>
        (t.slot? ix).any fun s => name.length + 1 ≤ s.size with
    | some ix =>
      exact ⟨_, _, rfl, reuseSlot_spec hwf h hno (mem_of_find?_eq_some hfree),
        fun k hk => absurd hk (hno k)⟩
    | none =>
      obtain ⟨o, t', happend, halloc⟩ := appendSlot_spec hwf h hno hlen
      exact ⟨o, t', happend, halloc, fun k hk => absurd hk (hno k)⟩

end

end Segnames

end Valgrind.Aspacemgr
