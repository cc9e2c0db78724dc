import Valgrind.Drd.BitmapNodes

/-!
# Drd/BitmapLoops — the loop over a range of addresses

The abstract state of the bitmaps gives each address its two bits, and each second-level block
whether it is present and whether it is marked.  `blockLoop_rule` is the loop over a range, with an
invariant that speaks of the addresses passed.
-/

namespace Valgrind.Drd

open Bool Bitmaps Bitmap2 Option

/-! ## The abstract state -/

/-- The bits of all addresses; the blocks that are marked, and those that are present. -/
@[ext]
structure AbsBitmaps (ι : Type) where
  bits : ι → Access → ℕ → Bool
  marked : ι → ℕ → Bool
  present : ι → ℕ → Bool

/-- The bit of a kind for a position of the block. -/
def Bitmap2.bit (n : Bitmap2) (k : Access) (x : ℕ) : Bool := (n.bm1.get k).bit x

/-- The abstract state that the nodes of a memory stand for. -/
def view {ι : Type} (B : ι → UWord → Option Bitmap2) : AbsBitmaps ι where
  bits i k a := (B i (a / 4096)).any fun n => n.bit k (a % 4096)
  marked i b := (B i b).any Bitmap2.recalc
  present i b := (B i b).isSome

section Fields

variable {ι : Type} (B : ι → UWord → Option Bitmap2) (i : ι)

theorem view_bits (k : Access) (a : ℕ) :
    (view B).bits i k a = (B i (a / 4096)).any fun n => n.bit k (a % 4096) := rfl

theorem view_marked (b : ℕ) : (view B).marked i b = (B i b).any Bitmap2.recalc := rfl

theorem view_present (b : ℕ) : (view B).present i b = (B i b).isSome := rfl

end Fields

theorem Bitmap1.get_modify (p : Bitmap1) (kinds : Access → Bool) (f : Bm0 → Bm0) (k : Access) :
    (p.modify kinds f).get k = if kinds k then f (p.get k) else p.get k := by
  cases k <;> rfl

theorem Bitmap2.bit_modifyBits (n : Bitmap2) (kinds : Access → Bool) (f : Bm0 → Bm0) (k : Access)
    (x : ℕ) : (n.modifyBits kinds f).bit k x
      = if kinds k then (f (n.bm1.get k)).bit x else n.bit k x := by
  rw [bit, modifyBits, Bitmap1.get_modify]
  split_ifs <;> rfl

@[simp] theorem Bitmap2.bit_or (l r : Bitmap2) (k : Access) (x : ℕ) :
    ({ l with bm1 := l.bm1.or r.bm1 } : Bitmap2).bit k x = (l.bit k x || r.bit k x) := by
  cases k <;> exact bit_bm0Or _ _ x

@[simp] theorem Bitmap2.bit_zero (addr : UWord) (recalc : Bool) (k : Access) (x : ℕ) :
    (⟨addr, recalc, .zero⟩ : Bitmap2).bit k x = false := by
  cases k <;> exact bit_bm0Zero x

section View

variable {ι : Type} [DecidableEq ι] {B : ι → UWord → Option Bitmap2} {i j : ι} {m : UWord}
  {n : Option Bitmap2}

theorem bits_setBlock (k : Access) (a : ℕ) : (view (setBlock B i m n)).bits j k a
      = if j = i ∧ a / 4096 = m then n.any fun n => n.bit k (a % 4096) else (view B).bits j k a := by
  simp only [view, setBlock]
  split_ifs <;> rfl

theorem marked_setBlock (b : ℕ) : (view (setBlock B i m n)).marked j b
      = if j = i ∧ b = m then n.any Bitmap2.recalc else (view B).marked j b := by
  simp only [view, setBlock]
  split_ifs <;> rfl

theorem present_setBlock (b : ℕ) : (view (setBlock B i m n)).present j b
      = if j = i ∧ b = m then n.isSome else (view B).present j b := by
  simp only [view, setBlock]
  split_ifs <;> rfl

end View

/-! ## The loop over a range -/

/-- `b_next`: the end of the block of `b`, or `a2`. -/
def blockNext (a2 b : ℕ) : ℕ := min a2 ((b / 4096 + 1) * 4096)

section Range

variable {σ ρ : Type} {a1 a2 b : ℕ}

theorem lt_blockNext (hb : b < a2) : b < blockNext a2 b := by
  rw [blockNext]
  omega

theorem blockNext_le (a2 b : ℕ) : blockNext a2 b ≤ a2 := Nat.min_le_left _ _

theorem blockNext_le_block (a2 b : ℕ) : blockNext a2 b ≤ (b / 4096 + 1) * 4096 := Nat.min_le_right _ _

theorem blockNext_cases (a2 b : ℕ) : blockNext a2 b = a2 ∨ blockNext a2 b % 4096 = 0 := by
  rw [blockNext]
  omega

theorem bNext_eq (hb : b < a2) (h2 : a2 ≤ 2 ^ 64 - 4096) :
    (if firstAddressWithHigherMsb b > a2 then a2 else firstAddressWithHigherMsb b)
      = blockNext a2 b := by
  rw [firstAddressWithHigherMsb_eq (hb.trans_le h2), blockNext]
  split_ifs with h
  · exact (min_eq_left (le_of_lt h)).symm
  · exact (min_eq_right (not_lt.mp h)).symm

/-- A part of the loop goes on at `b` with `I b`, or ends it with `Q`. -/
def Goes (I : ℕ → σ → Prop) (Q : ρ → σ → Prop) (b : ℕ) (out : Except Abort (Option ρ × σ)) : Prop :=
  (∃ s, out = .ok (none, s) ∧ I b s) ∨ ∃ r s, out = .ok (some r, s) ∧ Q r s

/-- **The loop over a range**: `I b` is to hold when `b` is reached. -/
theorem blockLoop_rule (h2 : a2 ≤ 2 ^ 64 - 4096) {I : ℕ → σ → Prop} {Q : ρ → σ → Prop}
    (body : Addr → Addr → σ → Except Abort (Option ρ × σ))
    (hbody : ∀ b s, a1 ≤ b → b < a2 → b = a1 ∨ b % 4096 = 0 → I b s →
      Goes I Q (blockNext a2 b) (body b (blockNext a2 b) s))
    {s : σ} (h12 : a1 ≤ a2) (hI : I a1 s) :
    Goes I Q a2 (Bitmaps.blockLoop a2 body Bitmaps.blockFuel a1 s) := by
  have hrun : ∀ fuel b s, a1 ≤ b → b ≤ a2 → b = a2 ∨ b = a1 ∨ b % 4096 = 0 →
      (b < a2 → a2 / 4096 + 2 ≤ fuel + b / 4096) → 0 < fuel → I b s →
      Goes I Q a2 (blockLoop a2 body fuel b s) := by
    intro fuel
    induction fuel with
    | zero => exact fun b s _ _ _ _ h0 => absurd h0 (lt_irrefl 0)
    | succ fuel ih =>
      intro b s h1b hb2 hb hfuel _ hI
      by_cases hlt : b < a2
      · have hnext := lt_blockNext hlt
        have hcases := blockNext_cases a2 b
        have hle := blockNext_le a2 b
        have hstart : b = a1 ∨ b % 4096 = 0 := by omega
        rw [blockLoop, if_pos hlt, bNext_eq hlt h2]
        dsimp only
        rcases hbody b s h1b hlt hstart hI with ⟨s', hok, hI'⟩ | ⟨r, s', hok, hQ⟩
        · rw [hok]
          refine ih (blockNext a2 b) s' (by omega) hle (by tauto) (fun h => ?_) ?_ hI'
          · have hnb : blockNext a2 b = (b / 4096 + 1) * 4096 := by
              rw [blockNext] at h ⊢
              omega
            have := hfuel hlt
            omega
          · have := hfuel hlt
            omega
        · rw [hok]
          exact .inr ⟨r, s', rfl, hQ⟩
      · have hbeq : b = a2 := by omega
        subst hbeq
        rw [blockLoop, if_neg hlt]
        exact .inl ⟨s, rfl, hI⟩
  refine hrun _ a1 s le_rfl h12 (.inr (.inl rfl)) (fun _ => ?_) (by rw [blockFuel]; positivity) hI
  rw [blockFuel]
  omega

/-- The part of a range in a block that the loop has reached starts where the loop is. -/
theorem blockStart_eq (h1b : a1 ≤ b) (hb2 : b < a2) (h2 : a2 ≤ 2 ^ 64 - 4096)
    (hb : b = a1 ∨ b % 4096 = 0) : Bitmaps.blockStart (b / 4096) a1 a2 = some b := by
  rw [blockStart, makeAddress_zero (by omega)]
  by_cases hlt : b / 4096 * 4096 < a1
  · have heq : a1 = b := by omega
    rw [if_pos hlt, heq]
  · have heq : b / 4096 * 4096 = b := by omega
    rw [if_neg hlt, heq, if_pos hb2]

theorem blockEnd_eq (hb2 : b < a2) (h2 : a2 ≤ 2 ^ 64 - 4096) :
    Bitmaps.blockEnd (b / 4096) a2 = blockNext a2 b := by
  have hmod : (b / 4096 + 1) % 2 ^ 64 = b / 4096 + 1 := by omega
  rw [blockEnd, hmod, makeAddress_zero (by omega), blockNext]
  split_ifs with h
  · exact (min_eq_right (le_of_lt h)).symm
  · exact (min_eq_left (not_lt.mp h)).symm

end Range

/-! ## Recording accesses -/

/-- Does a range have addresses in a block? -/
def overlaps (a1 a2 b : ℕ) : Bool := a1 < a2 ∧ a1 / 4096 ≤ b ∧ b ≤ (a2 - 1) / 4096

namespace AbsBitmaps

variable {ι : Type} [DecidableEq ι]

/-- An access to `[a1, a2)`. -/
def access (A : AbsBitmaps ι) (i : ι) (k : Access) (a1 a2 : ℕ) : AbsBitmaps ι where
  bits j k' a := A.bits j k' a || (decide (j = i ∧ k' = k) && decide (a1 ≤ a ∧ a < a2))
  marked := A.marked
  present j b := A.present j b || (decide (j = i) && overlaps a1 a2 b)

/-- The bits of some kinds are cleared in `[a1, a2)`. -/
def clear (A : AbsBitmaps ι) (i : ι) (kinds : Access → Bool) (a1 a2 : ℕ) : AbsBitmaps ι where
  bits j k a := A.bits j k a && !(decide (j = i) && kinds k && decide (a1 ≤ a ∧ a < a2))
  marked := A.marked
  present := A.present

variable {A : AbsBitmaps ι} {i : ι} {k : Access} {kinds : Access → Bool} {a1 b a2 : ℕ}

theorem access_bits (j : ι) (k' : Access) (a : ℕ) : (A.access i k a1 a2).bits j k' a
    = (A.bits j k' a || (decide (j = i ∧ k' = k) && decide (a1 ≤ a ∧ a < a2))) := rfl

theorem access_present (j : ι) (m : ℕ) : (A.access i k a1 a2).present j m
    = (A.present j m || (decide (j = i) && overlaps a1 a2 m)) := rfl

theorem clear_bits (j : ι) (k : Access) (a : ℕ) : (A.clear i kinds a1 a2).bits j k a
    = (A.bits j k a && !(decide (j = i) && kinds k && decide (a1 ≤ a ∧ a < a2))) := rfl

theorem mem_range_split (h1 : a1 ≤ b) (h2 : b ≤ a2) (a : ℕ) :
    decide (a1 ≤ a ∧ a < a2) = (decide (a1 ≤ a ∧ a < b) || decide (b ≤ a ∧ a < a2)) := by
  rw [← decide_or]
  exact decide_eq_decide.mpr (by omega)

theorem overlaps_split (h1 : a1 ≤ b) (h2 : b ≤ a2) (m : ℕ) :
    overlaps a1 a2 m = (overlaps a1 b m || overlaps b a2 m) := by
  rw [overlaps, overlaps, overlaps, ← decide_or]
  exact decide_eq_decide.mpr (by omega)

theorem access_empty (a1 : ℕ) : A.access i k a1 a1 = A := by
  have hno : ∀ a, decide (a1 ≤ a ∧ a < a1) = false := fun a => decide_eq_false (by omega)
  have hover : ∀ b, overlaps a1 a1 b = false := fun b => decide_eq_false (by omega)
  refine AbsBitmaps.ext ?_ rfl ?_
  · funext j k' a
    rw [access_bits, hno, Bool.and_false, Bool.or_false]
  · funext j b
    rw [access_present, hover, Bool.and_false, Bool.or_false]

/-- An access may be split. -/
theorem access_access (h1 : a1 ≤ b) (h2 : b ≤ a2) :
    (A.access i k a1 b).access i k b a2 = A.access i k a1 a2 := by
  refine AbsBitmaps.ext ?_ rfl ?_
  · funext j k' a
    simp only [access_bits, mem_range_split h1 h2 a, Bool.and_or_distrib_left, Bool.or_assoc]
  · funext j m
    simp only [access_present, overlaps_split h1 h2 m, Bool.and_or_distrib_left, Bool.or_assoc]

theorem clear_empty (a1 : ℕ) : A.clear i kinds a1 a1 = A := by
  have hno : ∀ a, decide (a1 ≤ a ∧ a < a1) = false := fun a => decide_eq_false (by omega)
  refine AbsBitmaps.ext ?_ rfl rfl
  funext j k' a
  rw [clear_bits, hno, Bool.and_false, Bool.not_false, Bool.and_true]

theorem clear_clear (h1 : a1 ≤ b) (h2 : b ≤ a2) :
    (A.clear i kinds a1 b).clear i kinds b a2 = A.clear i kinds a1 a2 := by
  refine AbsBitmaps.ext ?_ rfl rfl
  funext j k' a
  simp only [clear_bits, mem_range_split h1 h2 a, Bool.and_or_distrib_left, Bool.not_or, Bool.and_assoc]

end AbsBitmaps

/-! ### The bits of one block -/

section

variable {ι : Type} [DecidableEq ι] {B : ι → UWord → Option Bitmap2} {i : ι} {b n : ℕ}
  {kinds : Access → Bool}

open AbsBitmaps

section

variable (hb : b < n) (hn : n ≤ (b / 4096 + 1) * 4096) {f : Bm0 → Bm0}
include hb hn

/-- Addresses of one block, and positions in it. -/
theorem mem_block (a : ℕ) : decide (b ≤ a ∧ a < n) = (decide (a / 4096 = b / 4096)
      && decide (b % 4096 ≤ a % 4096 ∧ a % 4096 < b % 4096 + (n - b))) := by
  rw [← decide_and]
  exact decide_eq_decide.mpr (by omega)

theorem overlaps_block (m : ℕ) :
    overlaps b n m = decide (m = b / 4096) := decide_eq_decide.mpr (by omega)

/-- Bits of one kind set in a part of one block. -/
theorem view_access {k : Access}
    (hf : ∀ m x, x < 4096 →
      (f m).bit x = (m.bit x || decide (b % 4096 ≤ x ∧ x < b % 4096 + (n - b)))) :
    view (setBlock B i (b / 4096)
        (some (((B i (b / 4096)).getD (newNode (b / 4096))).modifyBits (only k) f)))
      = (view B).access i k b n := by
  have hold : ∀ k' x, ((B i (b / 4096)).getD (newNode (b / 4096))).bit k' x
      = (B i (b / 4096)).any fun n => n.bit k' x := by
    intro k' x
    cases B i (b / 4096) with
    | none => exact bit_zero _ _ k' x
    | some n => rfl
  refine AbsBitmaps.ext ?_ ?_ ?_
  · funext j k' a
    rw [bits_setBlock, access_bits, mem_block hb hn a]
    by_cases hj : j = i ∧ a / 4096 = b / 4096
    · obtain ⟨hji, ha⟩ := hj
      subst j
      rw [if_pos ⟨rfl, ha⟩, any_some, bit_modifyBits]
      by_cases hk : k' = k
      · subst hk
        have hx : a % 4096 < 4096 := Nat.mod_lt _ (by norm_num)
        have honly : only k' k' = true := decide_eq_true rfl
        rw [if_pos honly, hf _ _ hx]
        have hold' := hold k' (a % 4096)
        rw [bit] at hold'
        simp [hold', view, ha]
      · have honly : only k k' = false := decide_eq_false hk
        rw [honly, hold k' (a % 4096)]
        simp [view, ha, hk]
    · have hno : ¬ ((j = i ∧ k' = k) ∧ a / 4096 = b / 4096) := fun h => hj ⟨h.1.1, h.2⟩
      rw [if_neg hj, ← Bool.and_assoc, ← Bool.decide_and, decide_eq_false hno, Bool.false_and,
        Bool.or_false]
  · funext j m
    rw [marked_setBlock]
    split_ifs with hj
    · obtain ⟨rfl, rfl⟩ := hj
      simp only [access, view, any_some]
      cases B j (b / 4096) <;> rfl
    · rfl
  · funext j m
    rw [present_setBlock, access_present, overlaps_block hb hn]
    by_cases hj : j = i ∧ m = b / 4096
    · simp [hj]
    · rw [if_neg hj, ← Bool.decide_and, decide_eq_false hj, Bool.or_false]

/-- Bits of some kinds cleared in a part of one block that is present. -/
theorem view_clear {old : Bitmap2} (hold : B i (b / 4096) = some old)
    (hf : ∀ m x, x < 4096 →
      (f m).bit x = (m.bit x && !decide (b % 4096 ≤ x ∧ x < b % 4096 + (n - b)))) :
    view (setBlock B i (b / 4096) (some (old.modifyBits kinds f))) = (view B).clear i kinds b n := by
  refine AbsBitmaps.ext ?_ ?_ ?_
  · funext j k a
    rw [bits_setBlock, clear_bits, mem_block hb hn a]
    by_cases hj : j = i ∧ a / 4096 = b / 4096
    · obtain ⟨hji, ha⟩ := hj
      subst j
      have hx : a % 4096 < 4096 := Nat.mod_lt _ (by norm_num)
      rw [if_pos ⟨rfl, ha⟩, any_some, bit_modifyBits, hf _ _ hx]
      cases hk : kinds k <;> simp [view, ha, hold, bit]
    · rw [if_neg hj, ← Bool.and_assoc, Bool.and_right_comm (decide (j = i)), ← Bool.decide_and,
        decide_eq_false hj]
      simp
  · funext j m
    rw [marked_setBlock]
    split_ifs with hj
    · obtain ⟨rfl, rfl⟩ := hj
      simp only [clear, view, hold]
      rfl
    · rfl
  · funext j m
    rw [present_setBlock]
    split_ifs with hj
    · obtain ⟨rfl, rfl⟩ := hj
      simp only [clear, view, hold]
      rfl
    · rfl

end

/-- Clearing where nothing is present changes nothing. -/
theorem view_clear_none (hn : n ≤ (b / 4096 + 1) * 4096)
    (hold : B i (b / 4096) = none) : (view B).clear i kinds b n = view B := by
  refine AbsBitmaps.ext ?_ rfl rfl
  funext j k a
  rw [clear_bits]
  by_cases hj : j = i ∧ b ≤ a ∧ a < n
  · obtain ⟨rfl, ha⟩ := hj
    have hdiv : a / 4096 = b / 4096 := by omega
    simp [view, hdiv, hold]
  · rw [Bool.and_right_comm, ← Bool.decide_and, decide_eq_false hj]
    simp

/-! ### What the functions on words do in a block -/

theorem bit_foldl_bm0Set {a c : ℕ} (h : a + c ≤ 4096) (m : Bm0) (x : ℕ) :
    ((List.range' a c).foldl bm0Set m).bit x = (m.bit x || decide (a ≤ x ∧ x < a + c)) := by
  induction c generalizing a m with
  | zero =>
    have hno : ¬ (a ≤ x ∧ x < a + 0) := by omega
    rw [decide_eq_false hno, Bool.or_false]
    rfl
  | succ c ih =>
    rw [List.range'_succ, List.foldl_cons, ih (by omega), bit_bm0Set (by omega), Bool.or_assoc,
      ← decide_or]
    congr 1
    exact decide_eq_decide.mpr (by omega)

theorem bit_setBlockBits (hb : b < n) (hn : n ≤ (b / 4096 + 1) * 4096) (m : Bm0) (x : ℕ)
    (hx : x < 4096) : (setBlockBits b n m).bit x
      = (m.bit x || decide (b % 4096 ≤ x ∧ x < b % 4096 + (n - b))) := by
  rw [setBlockBits, positions, addressLsb_eq, addressLsb_eq, addressLsb_eq]
  split_ifs with hall
  · have hin : b % 4096 ≤ x ∧ x < b % 4096 + (n - b) := by
      obtain ⟨h₁, h₂⟩ := hall
      have h₁' : (b : ℕ) % 4096 = 0 := h₁
      have h₂' : (n : ℕ) % 4096 = 0 := h₂
      omega
    rw [bit_bm0Fill hx, decide_eq_true hin, Bool.or_true]
  · have hlen : (n - 1) % 4096 + 1 - b % 4096 = n - b := by omega
    rw [hlen]
    exact bit_foldl_bm0Set (by omega) m x

/-- Two parts cleared one after the other. -/
theorem clear_parts {u v w : ℕ} (huv : u ≤ v) (hvw : v ≤ w) (y : Bool) (x : ℕ) :
    (y && !decide (u ≤ x ∧ x < v) && !decide (v ≤ x ∧ x < w)) = (y && !decide (u ≤ x ∧ x < w)) := by
  rw [Bool.and_assoc, ← Bool.not_or, ← Bool.decide_or]
  congr 2
  exact decide_eq_decide.mpr (by omega)

theorem clear_none (m : Bm0) (u x : ℕ) : m.bit x = (m.bit x && !decide (u ≤ x ∧ x < u)) := by
  have hno : ¬ (u ≤ x ∧ x < u) := by omega
  rw [decide_eq_false hno, Bool.not_false, Bool.and_true]

/-- A part of a word is cleared; positions are counted from the start of the block. -/
theorem bit_clearPart {base c d : ℕ} (hbase : base % 4096 = 0) (hc : base ≤ c)
    (hcd : c ≤ d) (hd : d ≤ base + 4096) (hw : c % 64 + (d - c) ≤ 64) (hlt : d - c < 64) (m : Bm0)
    (x : ℕ) : (bm0ClearRange m (addressLsb c) (scaledSize (d - c))).bit x
      = (m.bit x && !decide (c - base ≤ x ∧ x < d - base)) := by
  rw [addressLsb_eq, scaledSize_eq (by omega), bit_bm0ClearRange (by omega) hlt (by omega)]
  congr 2
  exact decide_eq_decide.mpr (by omega)

variable {base : ℕ}

/-- Clearing starts with a part of a word, up to the next word or the end. -/
theorem clearHead_spec (hbase : base % 4096 = 0) (hb : base ≤ b) (hbn : b < n)
    (hn : n ≤ base + 4096) (h64 : n ≤ 2 ^ 64 - 4096) (m : Bm0) :
    ∃ (c : ℕ) (m' : Bm0), clearHead b n m = (c, m') ∧ b ≤ c ∧ c ≤ n ∧ (c = n ∨ c % 64 = 0)
      ∧ ∀ x, m'.bit x = (m.bit x && !decide (b - base ≤ x ∧ x < c - base)) := by
  rw [clearHead, addressLsb_eq, uwordLsb_eq, firstAddressWithHigherUwordMsb_eq (by omega)]
  by_cases hw : b % 4096 % 64 = 0
  · rw [if_neg (not_not.mpr hw)]
    exact ⟨b, m, rfl, le_rfl, hbn.le, .inr (by omega), clear_none m _⟩
  · rw [if_pos hw]
    dsimp only
    obtain ⟨c, hc⟩ : ∃ c : ℕ, c = if (b / 64 + 1) * 64 > n then n else (b / 64 + 1) * 64 := ⟨_, rfl⟩
    have hbounds : b < c ∧ c ≤ n ∧ c ≤ (b / 64 + 1) * 64 ∧ (c = n ∨ c % 64 = 0) := by
      split_ifs at hc <;> omega
    obtain ⟨hbc, hcn, hword, hend⟩ := hbounds
    refine ⟨c, bm0ClearRange m (addressLsb b) (scaledSize (c - b)), ?_, hbc.le, hcn, hend,
      bit_clearPart hbase hb hbc.le (by omega) (by omega) (by omega) m⟩
    rw [hc, addressLsb_eq]

/-- Whole words are cleared next. -/
theorem clearMiddle_spec {c : ℕ} (hbase : base % 4096 = 0) (hb : base ≤ c) (hcn : c ≤ n)
    (hn : n ≤ base + 4096) (h64 : n ≤ 2 ^ 64 - 4096) (hc : c = n ∨ c % 64 = 0) (m : Bm0) :
    ∃ (d : ℕ) (m' : Bm0), clearMiddle c n m = (d, m') ∧ c ≤ d ∧ d ≤ n
      ∧ (d = n ∨ d % 64 = 0 ∧ n - d < 64)
      ∧ ∀ x, m'.bit x = (m.bit x && !decide (c - base ≤ x ∧ x < d - base)) := by
  rw [clearMiddle, addressLsb_eq, uwordLsb_eq, firstAddressWithSameUwordLsb_eq (by omega)]
  by_cases hw : c % 4096 % 64 = 0
  · rw [if_pos hw]
    dsimp only
    by_cases hgt : n / 64 * 64 > c
    · rw [if_pos hgt]
      refine ⟨n / 64 * 64, _, rfl, hgt.le, by omega, .inr (by omega), fun x => ?_⟩
      rw [uwordMsb_eq, scaledSize_eq (by omega), bit_bm0ClearWords (by omega)]
      congr 2
      exact decide_eq_decide.mpr (by omega)
    · rw [if_neg hgt]
      exact ⟨c, m, rfl, le_rfl, hcn, by omega, clear_none m _⟩
  · rw [if_neg hw]
    exact ⟨c, m, rfl, le_rfl, hcn, .inl (by omega), clear_none m _⟩

/-- **The three parts make up the range.** -/
theorem bit_clearBlockBits (hb : b < n) (hn : n ≤ (b / 4096 + 1) * 4096) (h64 : n ≤ 2 ^ 64 - 4096)
    (m : Bm0) (x : ℕ) : (clearBlockBits b n m).bit x
      = (m.bit x && !decide (b % 4096 ≤ x ∧ x < b % 4096 + (n - b))) := by
  have hbase : b / 4096 * 4096 % 4096 = 0 := Nat.mul_mod_left _ _
  have hle : b / 4096 * 4096 ≤ b := Nat.div_mul_le_self _ _
  have hn' : n ≤ b / 4096 * 4096 + 4096 := by omega
  obtain ⟨c, m₁, hhead, hbc, hcn, hcend, hm₁⟩ := clearHead_spec hbase hle hb hn' h64 m
  obtain ⟨d, m₂, hmiddle, hcd, hdn, hdend, hm₂⟩ :=
    clearMiddle_spec hbase (hle.trans hbc) hcn hn' h64 hcend m₁
  rw [clearBlockBits, hhead]
  dsimp only
  rw [hmiddle]
  dsimp only
  rw [bit_clearPart hbase (hle.trans (hbc.trans hcd)) hdn hn' (by omega) (by omega) m₂, hm₂, hm₁,
    clear_parts (by omega) (by omega), clear_parts (by omega) (by omega)]
  congr 2
  exact decide_eq_decide.mpr (by omega)

end

end Valgrind.Drd
