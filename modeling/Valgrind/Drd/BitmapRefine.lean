import Valgrind.Drd.BitmapLoops
import Valgrind.Foundations.Refinement

/-!
# Drd/BitmapRefine — the bitmaps refine a map from addresses to bits

Each operation of `drd_bitmap.c` does to the memory what an operation of the abstract state does to
the bits, marks and present blocks: `refines_step`.  So does each run, and each query in it returns
what the abstract state says: `bitmaps_refine`.
-/

namespace Valgrind.Drd

open List Nat Bool AbsBitmaps KeyedList

namespace Bitmaps

variable {ι : Type} [DecidableEq ι] {s s' : Bitmaps ι} {i : ι} {k : Access} {a1 a2 b : ℕ}
  {P : ℕ → Bool}

/-- A call returns, and what it leaves is sound and stands for `A`. -/
abbrev Becomes (out : Except Abort (Bitmaps ι)) (A : AbsBitmaps ι) : Prop :=
  ∃ s', out = .ok s' ∧ Sound s' ∧ view s'.block = A

/-- A query returns `r`, and leaves the nodes as they are. -/
abbrev Answers {ρ : Type} (s : Bitmaps ι) (out : Except Abort (ρ × Bitmaps ι)) (r : ρ) : Prop :=
  ∃ s', out = .ok (r, s') ∧ Sound s' ∧ SameNodes s s'

/-! ## Accesses -/

theorem addressMsb_of_lt (h : b < 2 ^ 64 - 4096) : addressMsb b < lastBlock := by
  rw [addressMsb_eq, lastBlock]
  change @LT.lt ℕ _ _ _
  omega

theorem addressLsb_le_blockNext (hb : b < a2) :
    addressLsb b ≤ addressLsb (blockNext a2 b - 1) := by
  have hnext := lt_blockNext hb
  have hblk := blockNext_le_block a2 b
  rw [addressLsb_eq, addressLsb_eq]
  change @LE.le ℕ _ _ _
  omega

/-- The node for an address is there after the lookup that inserts, and bits set in it are an
access. -/
theorem Sound.recordBits (h : Sound s) (i : ι) (k : Access) (hlast : b < 2 ^ 64 - 4096) :
    ∃ p s₁, s.bm2LookupOrInsert i (addressMsb b) = .ok (p, s₁) ∧ (s₁.node p).addr = b / 4096
      ∧ ∀ n f, b < n → n ≤ (b / 4096 + 1) * 4096 →
        (∀ m x, x < 4096 → (f m).bit x
          = (m.bit x || decide (b % 4096 ≤ x ∧ x < b % 4096 + (n - b)))) →
        let s' := s₁.modifyNode p fun n => n.modifyBits (only k) f
        Sound s' ∧ view s'.block = (view s.block).access i k b n := by
  obtain ⟨p, s₁, hok, hs₁, hp, hblock, -⟩ := h.bm2LookupOrInsert i (addressMsb_of_lt hlast)
  rw [addressMsb_eq] at hp hblock
  have haddr : (s₁.node p).addr = b / 4096 := hs₁.addr_of_lookup hp
  refine ⟨p, s₁, hok, haddr, fun n f hbn hn hf => ⟨hs₁.modifyNode hp haddr, ?_⟩⟩
  have hnode : s₁.node p = (s.block i (b / 4096)).getD (newNode (b / 4096)) :=
    node_of_block hp (by rw [hblock, setBlock_self])
  rw [hs₁.block_modifyNode hp, hblock, setBlock_setBlock, hnode]
  exact view_access hbn hn hf

/-- One block's part of an access. -/
theorem Sound.accessRangeBody (h : Sound s) (h1b : a1 ≤ b) (hb2 : b < a2) (h2 : a2 ≤ 2 ^ 64 - 4096)
    (hb : b = a1 ∨ b % 4096 = 0) :
    ∃ s', accessRangeBody i k a1 a2 b (blockNext a2 b) s = .ok (none, s') ∧ Sound s'
      ∧ view s'.block = (view s.block).access i k b (blockNext a2 b) := by
  have hnext := lt_blockNext hb2
  have hle := blockNext_le a2 b
  have hblk := blockNext_le_block a2 b
  obtain ⟨p, s₁, hok, haddr, hset⟩ := h.recordBits i k (hb2.trans_le h2)
  refine ⟨_, ?_, hset _ _ hnext hblk fun m x hx => bit_setBlockBits hnext hblk m x hx⟩
  have hmsb : addressMsb b = addressMsb (blockNext a2 b - 1) := by
    rw [addressMsb_eq, addressMsb_eq]
    change @Eq ℕ _ _
    omega
  rw [Bitmaps.accessRangeBody, hok, ok_bind]
  dsimp only
  rw [haddr, blockStart_eq h1b hb2 h2 hb, blockEnd_eq hb2 h2]
  dsimp only
  rw [vgAssert_bind ⟨h1b, hnext, zero_le.trans_lt hnext |>.ne', hle⟩,
    vgAssert_bind hmsb, vgAssert_bind (addressLsb_le_blockNext hb2)]
  rfl

/-- **An access to a range.** -/
theorem Sound.bmAccessRangeOf (h : Sound s) (h12 : a1 ≤ a2) (h2 : a2 < 2 ^ 64 - 4096) :
    Becomes (s.bmAccessRangeOf i k a1 a2) ((view s.block).access i k a1 a2) := by
  have hwrap : a2 < firstAddressWithHigherMsb a2 := by
    rw [firstAddressWithHigherMsb_eq h2]
    omega
  -- what has been recorded when the loop is at `b`
  let I : ℕ → Bitmaps ι → Prop := fun b t =>
    Sound t ∧ view t.block = (view s.block).access i k a1 b
  have hloop := blockLoop_rule h2.le (I := I) (Q := fun _ _ => False)
    (Bitmaps.accessRangeBody i k a1 a2) (s := s) ?_ h12
    ⟨h, by rw [access_empty]⟩
  · obtain ⟨s', hok, hs'⟩ := hloop.resolve_right fun ⟨_, _, _, hfalse⟩ => hfalse
    refine ⟨s', ?_, hs'⟩
    rw [Bitmaps.bmAccessRangeOf, vgAssert_bind h12, vgAssert_bind hwrap, hok]
    rfl
  · rintro b t h1b hb2 hb ⟨ht, hview⟩
    obtain ⟨t', hok, ht', hview'⟩ := ht.accessRangeBody (i := i) (k := k) h1b hb2 h2.le hb
    refine .inl ⟨t', hok, ht', ?_⟩
    rw [hview', hview, access_access h1b (lt_blockNext hb2).le]

theorem Sound.bmAccessRange (h : Sound s) (i : ι) (k : Access) (h12 : a1 ≤ a2)
    (h2 : a2 < 2 ^ 64 - 4096) :
    Becomes (s.bmAccessRange i a1 a2 k.type) ((view s.block).access i k a1 a2) := by
  obtain ⟨s', hok, hs'⟩ := h.bmAccessRangeOf (i := i) (k := k) h12 h2
  exact ⟨s', by rw [← hok]; cases k <;> rfl, hs'⟩

/-- An access inside one word. -/
theorem Sound.bmAccessAligned (h : Sound s) (i : ι) (k : Access) (a1 size : ℕ)
    (ha : 0 < size ∧ a1 % 8 + size ≤ 8 ∧ a1 < 2 ^ 64 - 4096) :
    Becomes (s.bmAccessAligned i k a1 size) ((view s.block).access i k a1 (a1 + size)) := by
  obtain ⟨p, s₁, hok, -, hset⟩ := h.recordBits i k ha.2.2
  refine ⟨_, by rw [Bitmaps.bmAccessAligned, hok]; rfl, hset _ _ (by omega) (by omega)
    fun m x _ => ?_⟩
  rw [addressLsb_eq, scaledSize_eq (by omega), bit_bm0SetRange (by omega) (by omega) (by omega),
    Nat.add_sub_cancel_left]

/-- An access takes one of two ways, by its alignment. -/
theorem ite_aligned {α : Type} {P : α → Prop} {x y : α} (k : ℕ) (hx : a1 % 2 ^ k = 0 → P x)
    (hy : a1 % 2 ^ k ≠ 0 → P y) : P (if a1 &&& (2 ^ k - 1) = 0 then x else y) := by
  rw [and_two_pow_sub_one_eq_mod]
  split_ifs with h
  · exact hx h
  · exact hy h

/-- **An access of one, two, four or eight bytes**, however it is aligned. -/
theorem Sound.bmAccessSized (h : Sound s) (n : AccessSize) (hlast : a1 + n.bytes ≤ 2 ^ 64 - 4096) :
    Becomes (s.bmAccessSized i k a1 n) ((view s.block).access i k a1 (a1 + n.bytes)) := by
  have hrange : ∀ n, a1 + n < 2 ^ 64 - 4096 →
      Becomes (s.bmAccessRange i a1 ((a1 + n) % 2 ^ 64) k.type)
        ((view s.block).access i k a1 (a1 + n)) := by
    intro n hn
    have hmod : (a1 + n) % 2 ^ 64 = a1 + n := mod_eq_of_lt (by omega)
    rw [hmod]
    exact h.bmAccessRange i k (le_add_right a1 n) hn
  cases n <;> rw [AccessSize.bytes] at hlast ⊢ <;> rw [Bitmaps.bmAccessSized]
  case one => exact h.bmAccessAligned i k a1 1 (by omega)
  case two =>
    exact ite_aligned (P := (Becomes · _)) 1 (fun _ => h.bmAccessAligned i k a1 2 (by omega))
      fun _ => hrange 2 (by omega)
  case four =>
    exact ite_aligned (P := (Becomes · _)) 2 (fun _ => h.bmAccessAligned i k a1 4 (by omega))
      fun _ => hrange 4 (by omega)
  case eight =>
    refine ite_aligned (P := (Becomes · _)) 3 (fun _ => h.bmAccessAligned i k a1 8 (by omega))
      fun _ => ite_aligned (P := (Becomes · _)) 2 (fun _ => ?_) fun _ => hrange 8 (by omega)
    -- two aligned accesses of four bytes
    obtain ⟨s₁, hok₁, hs₁, hview₁⟩ := h.bmAccessAligned i k a1 4 (by omega)
    obtain ⟨s₂, hok₂, hs₂, hview₂⟩ := hs₁.bmAccessAligned i k (a1 + 4) 4 (by omega)
    have hmod : (a1 + 4) % 2 ^ 64 = a1 + 4 := mod_eq_of_lt (by omega)
    rw [hok₁, ok_bind, hmod]
    refine ⟨s₂, hok₂, hs₂, ?_⟩
    rw [hview₂, hview₁, access_access (by omega) (by omega)]

/-! ## Clearing -/

/-- **Clearing a range.** -/
theorem Sound.bmClearOf (h : Sound s) (i : ι) (kinds : Access → Bool) (h0 : a1 ≠ 0)
    (h12 : a1 ≤ a2) (h2 : a2 ≤ 2 ^ 64 - 4096) :
    Becomes (s.bmClearOf i kinds a1 a2) ((view s.block).clear i kinds a1 a2) := by
  -- what has been cleared when the loop is at `b`
  let I : ℕ → Bitmaps ι → Prop := fun b t =>
    Sound t ∧ view t.block = (view s.block).clear i kinds a1 b
  have hloop := blockLoop_rule h2 (I := I) (Q := fun _ _ => False) (clearBody i kinds) (s := s) ?_ h12
    ⟨h, by rw [clear_empty]⟩
  · obtain ⟨s', hok, hs'⟩ := hloop.resolve_right fun ⟨_, _, _, hfalse⟩ => hfalse
    refine ⟨s', ?_, hs'⟩
    rw [Bitmaps.bmClearOf, vgAssert_bind h0, vgAssert_bind h12, hok]
    rfl
  · rintro b t h1b hb2 - ⟨ht, hview⟩
    have hnext := lt_blockNext hb2
    have hblk := blockNext_le_block a2 b
    have hsplit : ((view s.block).clear i kinds a1 b).clear i kinds b (blockNext a2 b)
        = (view s.block).clear i kinds a1 (blockNext a2 b) := clear_clear h1b hnext.le
    left
    rw [clearBody, ht.bm2LookupExclusive, addressMsb_eq]
    cases hp : t.lookup i (b / 4096) with
    | none =>
      refine ⟨t, rfl, ht, ?_⟩
      rw [← hsplit, ← hview, view_clear_none hblk (block_eq_none_iff.mpr hp)]
    | some p =>
      refine ⟨_, rfl, ht.modifyNode hp (ht.addr_of_lookup hp), ?_⟩
      rw [ht.block_modifyNode hp, ← hsplit, ← hview]
      exact view_clear hnext hblk (block_of_lookup hp) fun m x _ =>
        bit_clearBlockBits hnext hblk ((blockNext_le a2 b).trans h2) m x

/-! ## Queries -/

/-- Does some address of a range satisfy a test? -/
def anyIn (a1 a2 : ℕ) (P : ℕ → Bool) : Bool := (List.range' a1 (a2 - a1)).any P

theorem anyIn_eq_true_iff : anyIn a1 a2 P = true ↔ ∃ a, (a1 ≤ a ∧ a < a2) ∧ P a := by
  rw [anyIn, any_eq_true]
  refine exists_congr fun a => and_congr_left fun _ => ?_
  rw [mem_range'_1]
  omega

theorem anyIn_congr {Q : ℕ → Bool} (h : ∀ a, a1 ≤ a → a < a2 → P a = Q a) :
    anyIn a1 a2 P = anyIn a1 a2 Q := by
  rw [Bool.eq_iff_iff, anyIn_eq_true_iff, anyIn_eq_true_iff]
  exact exists_congr fun a => and_congr_right fun ha => by rw [h a ha.1 ha.2]

theorem anyIn_eq_false (h : ∀ a, a1 ≤ a → a < a2 → P a = false) : anyIn a1 a2 P = false :=
  (anyIn_congr h).trans (by simp [anyIn])

theorem anyIn_split {n : ℕ} (hb : a1 ≤ b) (hn : b ≤ n) :
    anyIn a1 n P = (anyIn a1 b P || anyIn b n P) := by
  obtain ⟨c, rfl⟩ := Nat.exists_eq_add_of_le hb
  obtain ⟨d, rfl⟩ := Nat.exists_eq_add_of_le hn
  rw [anyIn, anyIn, anyIn, ← any_append, add_assoc, Nat.add_sub_cancel_left,
    Nat.add_sub_cancel_left, ← add_assoc, Nat.add_sub_cancel_left, List.range'_append_1]

theorem anyIn_or (a1 a2 : ℕ) (P Q : ℕ → Bool) :
    anyIn a1 a2 (fun a => P a || Q a) = (anyIn a1 a2 P || anyIn a1 a2 Q) := by
  rw [Bool.eq_iff_iff, Bool.or_eq_true, anyIn_eq_true_iff, anyIn_eq_true_iff, anyIn_eq_true_iff,
    ← exists_or]
  exact exists_congr fun a => by rw [or_eq_true, and_or_left]

/-- The scan of positions. -/
theorem anyM_positions {test : UWord → Except Abort Bool} (htest : ∀ x, test x = .ok (P x))
    (l : List UWord) : l.anyM test = .ok (l.any P) := by
  rw [funext htest]
  exact anyM_pure

/-- The positions of a part of a block are those of its addresses. -/
theorem any_positions {n : ℕ} (hb : b < n) (hn : n ≤ (b / 4096 + 1) * 4096) :
    (positions b n).any P = anyIn b n fun a => P (a % 4096) := by
  rw [Bool.eq_iff_iff, anyIn_eq_true_iff, positions, addressLsb_eq, addressLsb_eq, any_eq_true]
  constructor
  · rintro ⟨x, hx, hP⟩
    rw [mem_range'_1] at hx
    have hx' : b % 4096 ≤ x ∧ x < b % 4096 + ((n - 1) % 4096 + 1 - b % 4096) := hx
    have hmod : (b / 4096 * 4096 + x) % 4096 = x := by omega
    exact ⟨b / 4096 * 4096 + x, by omega, by rwa [hmod]⟩
  · rintro ⟨a, ha, hP⟩
    refine ⟨a % 4096, ?_, hP⟩
    rw [mem_range'_1]
    change b % 4096 ≤ a % 4096 ∧ a % 4096 < b % 4096 + ((n - 1) % 4096 + 1 - b % 4096)
    omega

theorem blockLoop_of_le {σ ρ : Type} {body : Addr → Addr → σ → Except Abort (Option ρ × σ)} {t : σ}
    (h : a2 ≤ a1) : blockLoop a2 body blockFuel a1 t = .ok (none, t) := by
  obtain ⟨n, hn⟩ : ∃ n, blockFuel = n + 1 := ⟨2 ^ 53 - 1, by norm_num [blockFuel]⟩
  rw [hn, blockLoop, if_neg (not_lt.mpr h)]

/-- What a test says of an address. -/
def holdsAt (B : ι → UWord → Option Bitmap2) (i : ι) (P : Bitmap1 → ℕ → Bool) (a : ℕ) : Bool :=
  (B i (a / 4096)).any fun n => P n.bm1 (a % 4096)

section

variable {test : Bitmap1 → UWord → Except Abort Bool} {P : Bitmap1 → ℕ → Bool}
  (htest : ∀ p1 x, test p1 x = .ok (P p1 x))
include htest

/-- One block's part of a query. -/
theorem Sound.hasAnyBody (h : Sound s) (i : ι) (h1b : a1 ≤ b) (hb2 : b < a2)
    (h2 : a2 ≤ 2 ^ 64 - 4096) (hb : b = a1 ∨ b % 4096 = 0) :
    Answers s (hasAnyBody i test a1 a2 b (blockNext a2 b) s)
      (if anyIn b (blockNext a2 b) (holdsAt s.block i P) then some true else none) := by
  have hnext := lt_blockNext hb2
  have hblk := blockNext_le_block a2 b
  obtain ⟨s', hlookup, hs', hsame⟩ := h.bm2Lookup i (addressMsb b)
  refine ⟨s', ?_, hs', hsame⟩
  have hat : anyIn b (blockNext a2 b) (holdsAt s.block i P) = anyIn b (blockNext a2 b) fun a =>
      (s.block i (b / 4096)).any fun n => P n.bm1 (a % 4096) := anyIn_congr fun a _ _ => by
    have hdiv : a / 4096 = b / 4096 := by omega
    rw [holdsAt, hdiv]
  rw [Bitmaps.hasAnyBody, hlookup, addressMsb_eq, hat]
  dsimp only
  cases hp : s.lookup i (b / 4096) with
  | none =>
    have hnone : anyIn b (blockNext a2 b) (fun _ => false) = false := anyIn_eq_false fun _ _ _ => rfl
    simp [block_eq_none_iff.mpr hp, hnone]
  | some p =>
    dsimp only
    rw [hs'.addr_of_lookup (hsame.lookup ▸ hp), blockStart_eq h1b hb2 h2 hb, blockEnd_eq hb2 h2]
    dsimp only
    rw [vgAssert_bind ⟨h1b, hb2.le⟩, vgAssert_bind ⟨h1b.trans hnext.le, blockNext_le a2 b⟩,
      vgAssert_bind hnext, vgAssert_bind (addressLsb_le_blockNext hb2), anyM_positions (htest _),
      ok_bind, any_positions hnext hblk, block_of_lookup hp, hsame.node]
    simp only [Option.any_some]
    split_ifs <;> rfl

/-- **A query about a range** returns what its test says of the range's addresses. -/
theorem Sound.bmHasAnyOf (h : Sound s) (i : ι) (a1 : ℕ) (h2 : a2 ≤ 2 ^ 64 - 4096) :
    Answers s (s.bmHasAnyOf i test a1 a2) (anyIn a1 a2 (holdsAt s.block i P)) := by
  rw [Bitmaps.bmHasAnyOf]
  rcases le_or_gt a2 a1 with hle | hlt
  · rw [blockLoop_of_le hle, anyIn_eq_false fun a _ _ => by omega]
    exact ⟨s, rfl, h, .refl s⟩
  -- nothing has been found when the loop is at `b`
  have hloop := blockLoop_rule h2 (I := fun b t => anyIn a1 b (holdsAt s.block i P) = false
      ∧ Sound t ∧ SameNodes s t)
    (Q := fun r t => r = anyIn a1 a2 (holdsAt s.block i P) ∧ Sound t ∧ SameNodes s t)
    (Bitmaps.hasAnyBody i test a1 a2) (s := s) ?_ hlt.le
    ⟨anyIn_eq_false fun a _ _ => by omega, h, .refl s⟩
  · rcases hloop with ⟨s', hok, hno, hs'⟩ | ⟨r, s', hok, rfl, hs'⟩
    · exact ⟨s', by rw [hok, hno]; rfl, hs'⟩
    · exact ⟨s', by rw [hok]; rfl, hs'⟩
  · rintro b t h1b hb2 hb ⟨hno, ht, hsame⟩
    obtain ⟨t', hok, ht', hsame'⟩ := ht.hasAnyBody htest i h1b hb2 h2 hb
    have hnext := lt_blockNext hb2
    have hpart := anyIn_split (P := holdsAt s.block i P) h1b hnext.le
    rw [hno, Bool.false_or, ← hsame.block] at hpart
    rw [Goes, hok]
    cases hany : anyIn b (blockNext a2 b) (holdsAt t.block i P) with
    | true =>
      refine .inr ⟨true, t', rfl, ?_, ht', hsame.trans hsame'⟩
      rw [anyIn_split (h1b.trans hnext.le) (blockNext_le a2 b), ← hsame.block, hpart, hany,
        Bool.true_or]
    | false => exact .inl ⟨t', rfl, hsame.block ▸ hpart.trans hany, ht', hsame.trans hsame'⟩

end

/-! ## Loops over nodes -/

/-- The blocks after a loop over the nodes of `r` that changes those of `l`. -/
def updBlocks (B : ι → UWord → Option Bitmap2) (l r : ι)
    (upd : Option Bitmap2 → Bitmap2 → Option Bitmap2) : ι → UWord → Option Bitmap2 :=
  fun j b => if j = l then (B r b).elim (B l b) (upd (B l b)) else B j b

/-- A loop body returns with the block of `l` for `a` set to `n`, and the nodes of `r` where they
were. -/
abbrev SetsBlock (s : Bitmaps ι) (l r : ι) (a : UWord) (out : Except Abort (Bitmaps ι))
    (n : Option Bitmap2) : Prop :=
  ∃ s', out = .ok s' ∧ Sound s' ∧ s'.block = setBlock s.block l a n
    ∧ (s'.bm r).oset = (s.bm r).oset

/-- **The loop over a bitmap's nodes.**  If the body at the node of a key changes that key's block of
`l` as `upd` says, the loop does so for all keys. -/
theorem Sound.forEach (h : Sound s) (l r : ι)
    (body : Bm2Ptr → Bitmaps ι → Except Abort (Bitmaps ι))
    (upd : Option Bitmap2 → Bitmap2 → Option Bitmap2)
    (hbody : ∀ {s a p}, Sound s → s.lookup r a = some p →
      SetsBlock s l r a (body p s) (upd (s.block l a) (s.node p))) :
    ∃ s', forEach body (s.bm r).oset s = .ok s' ∧ Sound s' ∧ s'.block = updBlocks s.block l r upd := by
  -- what the loop does to the keys still to come
  have hrest : ∀ rest t, Sound t → rest.Sublist (t.bm r).oset →
      ∃ s', Bitmaps.forEach body rest t = .ok s' ∧ Sound s'
        ∧ s'.block = fun j b => if j = l then
            ((find rest b).map t.node).elim (t.block l b) (upd (t.block l b)) else t.block j b := by
    intro rest
    induction rest with
    | nil =>
      intro t ht _
      refine ⟨t, rfl, ht, ?_⟩
      funext j b
      split_ifs with hj
      · rw [hj]
        rfl
      · rfl
    | cons e rest ih =>
      obtain ⟨a, p⟩ := e
      intro t ht hsub
      have hsorted : KeyedList.Sorted ((a, p) :: rest) := (ht.sorted r).sublist hsub
      have hp : t.lookup r a = some p := ht.lookup_iff.mpr (hsub.subset mem_cons_self)
      obtain ⟨t₁, hok₁, ht₁, hblock₁, hr₁⟩ := hbody ht hp
      obtain ⟨s', hok, hs', hblock⟩ := ih t₁ ht₁ (hr₁ ▸ (sublist_cons_self _ _).trans hsub)
      refine ⟨s', ?_, hs', ?_⟩
      · rw [Bitmaps.forEach, hok₁]
        exact hok
      -- the key just done does not come again, and the others' nodes are as before
      have hnot := hsorted.find_tail
      have hnode : ∀ b, b ≠ a → (find rest b).map t₁.node = (find rest b).map t.node := by
        intro b hb
        cases hq : find rest b with
        | none => rfl
        | some q =>
          have hmem : (b, q) ∈ (t.bm r).oset :=
            hsub.subset (mem_cons_of_mem _ (mem_of_find hq))
          have hl : t.lookup r b = some q := ht.lookup_iff.mpr hmem
          have hl₁ : t₁.lookup r b = some q := ht₁.lookup_iff.mpr (hr₁ ▸ hmem)
          rw [Option.map_some, Option.map_some, node_of_block hl₁]
          rw [hblock₁, setBlock_of_ne _ (fun h => hb h.2), block_of_lookup hl]
      rw [hblock]
      funext j b
      by_cases hj : j = l
      · subst j
        rw [if_pos rfl, if_pos rfl, find_cons]
        by_cases hb : a = b
        · subst b
          rw [if_pos rfl, hnot, hblock₁, setBlock_self]
          rfl
        · rw [if_neg hb, hnode b (Ne.symm hb), hblock₁, setBlock_of_ne _ (fun h => hb h.2.symm)]
      · rw [if_neg hj, if_neg hj, hblock₁, setBlock_of_ne _ (fun h => hj h.1)]
  exact hrest _ s h (List.Sublist.refl _)

/-! ### The bodies -/

/-- The node of the union: the marks of the old node stay, a new one has none. -/
def mergeNode (old : Option Bitmap2) (n : Bitmap2) : Bitmap2 :=
  old.elim { newNode n.addr with bm1 := n.bm1 } fun o => { o with bm1 := o.bm1.or n.bm1 }

theorem bit_mergeNode (o : Option Bitmap2) (n : Bitmap2) (k : Access) (x : ℕ) :
    (mergeNode o n).bit k x = ((o.any fun o => o.bit k x) || n.bit k x) := by
  cases o with
  | none => rfl
  | some o => exact o.bit_or n k x

theorem recalc_mergeNode (o : Option Bitmap2) (n : Bitmap2) :
    (mergeNode o n).recalc = o.any Bitmap2.recalc := by
  cases o <;> rfl

section Bodies

variable {l r : ι} {a : UWord} {p q : Bm2Ptr}

/-- The union of two nodes of one key. -/
theorem Sound.bm2Merge (h : Sound s) (hlr : l ≠ r) (hp : s.lookup r a = some p)
    (hq : s.lookup l a = some q) :
    let s' := s.modifyNode q fun n => { n with bm1 := n.bm1.or (s.node p).bm1 }
    (do vgAssert (q ≠ p); s.bm2Merge q p) = .ok s' ∧ Sound s'
      ∧ s'.block = setBlock s.block l a (some (mergeNode (s.block l a) (s.node p))) := by
  have hqp : q ≠ p := by
    rintro rfl
    exact hlr (h.lookup_inj hq hp).1
  have haddr : (s.node q).addr = (s.node p).addr := by
    rw [h.addr_of_lookup hq, h.addr_of_lookup hp]
  refine ⟨?_, h.modifyNode hq (h.addr_of_lookup hq), ?_⟩
  · rw [vgAssert_bind hqp, Bitmaps.bm2Merge, vgAssert_bind haddr]
    rfl
  · rw [h.block_modifyNode hq, block_of_lookup hq]
    rfl

theorem Sound.merge2Body (h : Sound s) (hlr : l ≠ r) (hp : s.lookup r a = some p) :
    SetsBlock s l r a (merge2Body l p s) (some (mergeNode (s.block l a) (s.node p))) := by
  have haddr := h.addr_of_lookup hp
  rw [Bitmaps.merge2Body, haddr, ← lookup]
  cases hq : s.lookup l a with
  | some q =>
    obtain ⟨hok, hs', hblock⟩ := h.bm2Merge hlr hp hq
    exact ⟨_, hok, hs', hblock, rfl⟩
  | none =>
    obtain ⟨q, s₁, hok, hs₁, hl, hblock, hoset⟩ := h.bm2Insert hq (h.below_of_lookup hp)
    have hp₁ : s₁.lookup r a = some p := by rw [← hp, lookup, lookup, hoset r hlr.symm]
    have hnode : s₁.node p = s.node p := node_of_block hp₁ <| by
      rw [hblock, setBlock_of_ne _ (fun h => hlr h.1.symm), block_of_lookup hp]
    have hnew : s₁.node q = newNode a := node_of_block hl (by rw [hblock, setBlock_self])
    refine ⟨s₁.modifyNode q fun n => { n with bm1 := (s₁.node p).bm1 }, ?_,
      hs₁.modifyNode hl (hs₁.addr_of_lookup hl), ?_, hoset r hlr.symm⟩
    · rw [bm2InsertCopy, haddr, hok]
      rfl
    · rw [hs₁.block_modifyNode hl, hblock, setBlock_setBlock, hnew, hnode,
        block_eq_none_iff.mpr hq, mergeNode, haddr]
      rfl

theorem Sound.markBody (h : Sound s) (hp : s.lookup r a = some p) :
    SetsBlock s l r a (markBody l p s)
      (some { (s.block l a).getD (newNode (s.node p).addr) with recalc := true }) := by
  have haddr := h.addr_of_lookup hp
  obtain ⟨q, s₁, hok, hs₁, hq, hblock, hoset⟩ := h.bm2LookupOrInsert l (h.below_of_lookup hp)
  have hnode : s₁.node q = (s.block l a).getD (newNode a) :=
    node_of_block hq (by rw [hblock, setBlock_self])
  refine ⟨s₁.modifyNode q fun n => { n with recalc := true }, ?_,
    hs₁.modifyNode hq (hs₁.addr_of_lookup hq), ?_, hoset r ?_⟩
  · rw [Bitmaps.markBody, haddr, hok]
    rfl
  · rw [hs₁.block_modifyNode hq, hblock, setBlock_setBlock, hnode, haddr]
  · by_cases hrl : r = l
    · right
      rw [← hrl, hp]
      rfl
    · exact .inl hrl

theorem Sound.merge2MarkedBody (h : Sound s) (hlr : l ≠ r) (hp : s.lookup r a = some p) :
    SetsBlock s l r a (merge2MarkedBody l p s) ((s.block l a).map fun o =>
      if o.recalc then mergeNode (some o) (s.node p) else o) := by
  rw [Bitmaps.merge2MarkedBody, h.addr_of_lookup hp, ← lookup]
  cases hq : s.lookup l a with
  | some q =>
    rw [block_of_lookup hq, Option.map_some]
    dsimp only
    by_cases hmark : (s.node q).recalc
    · obtain ⟨hok, hs', hblock⟩ := h.bm2Merge hlr hp hq
      rw [if_pos hmark, if_pos hmark]
      exact ⟨_, hok, hs', by rw [hblock, block_of_lookup hq], rfl⟩
    · rw [if_neg hmark, if_neg hmark]
      exact ⟨s, rfl, h, (setBlock_eq_self (block_of_lookup hq)).symm, rfl⟩
  | none =>
    have hblock : s.block l a = none := block_eq_none_iff.mpr hq
    rw [hblock]
    exact ⟨s, rfl, h, (setBlock_eq_self hblock).symm, rfl⟩

/-- The body of a loop that changes each node by itself. -/
theorem Sound.ownBody (h : Sound s) (hp : s.lookup r a = some p) {f : Bitmap2 → Bitmap2}
    (hf : ∀ n, (f n).addr = n.addr) :
    Sound (s.modifyNode p f)
      ∧ (s.modifyNode p f).block = setBlock s.block r a (some (f (s.node p))) :=
  ⟨h.modifyNode hp (by rw [hf, h.addr_of_lookup hp]), h.block_modifyNode hp⟩

end Bodies

/-! ### What the loops do to the abstract state -/

end Bitmaps

namespace AbsBitmaps

variable {ι : Type} [DecidableEq ι]

/-- `l` becomes the union of `l` and `r`. -/
def merge2 (A : AbsBitmaps ι) (l r : ι) : AbsBitmaps ι where
  bits j k a := A.bits j k a || (decide (j = l) && A.bits r k a)
  marked := A.marked
  present j b := A.present j b || (decide (j = l) && A.present r b)

/-- No block of `i` is marked. -/
def unmark (A : AbsBitmaps ι) (i : ι) : AbsBitmaps ι where
  bits := A.bits
  marked j b := A.marked j b && !decide (j = i)
  present := A.present

/-- The blocks present in `r` are marked in `l`, where they are present from now on. -/
def mark (A : AbsBitmaps ι) (l r : ι) : AbsBitmaps ι where
  bits := A.bits
  marked j b := A.marked j b || (decide (j = l) && A.present r b)
  present j b := A.present j b || (decide (j = l) && A.present r b)

/-- The marked blocks of `i` are cleared. -/
def clearMarked (A : AbsBitmaps ι) (i : ι) : AbsBitmaps ι where
  bits j k a := A.bits j k a && !(decide (j = i) && A.marked i (a / 4096))
  marked := A.marked
  present := A.present

/-- The bits of `r` in blocks that are marked in `l` are added to `l`. -/
def merge2Marked (A : AbsBitmaps ι) (l r : ι) : AbsBitmaps ι where
  bits j k a := A.bits j k a || (decide (j = l) && (A.marked l (a / 4096) && A.bits r k a))
  marked := A.marked
  present := A.present

/-- Is a block marked and without accesses? -/
def isCleared (A : AbsBitmaps ι) (i : ι) (b : ℕ) : Bool :=
  A.marked i b
    && !Bitmaps.anyIn (b * 4096) ((b + 1) * 4096) fun a => A.bits i .load a || A.bits i .store a

/-- The marked blocks of `i` without accesses are no longer present. -/
def removeClearedMarked (A : AbsBitmaps ι) (i : ι) : AbsBitmaps ι where
  bits := A.bits
  marked j b := A.marked j b && !(decide (j = i) && A.isCleared i b)
  present j b := A.present j b && !(decide (j = i) && A.isCleared i b)

end AbsBitmaps

namespace Bitmaps

variable {ι : Type} [DecidableEq ι] {s s' : Bitmaps ι} {i l r : ι}
  {B : ι → UWord → Option Bitmap2} {rest : List (UWord × Bm2Ptr)} {a : UWord} {p : Bm2Ptr}

/-- The abstract state after a loop, from what it does to the blocks of `l`. -/
theorem view_updBlocks {upd : Option Bitmap2 → Bitmap2 → Option Bitmap2} {A : AbsBitmaps ι}
    (hother : ∀ j, j ≠ l → A.bits j = (view B).bits j ∧ A.marked j = (view B).marked j
      ∧ A.present j = (view B).present j)
    (hbits : ∀ k a, A.bits l k a = ((B r (a / 4096)).elim (B l (a / 4096)) (upd (B l (a / 4096)))).any
      fun n => n.bit k (a % 4096))
    (hmarked : ∀ b, A.marked l b = ((B r b).elim (B l b) (upd (B l b))).any Bitmap2.recalc)
    (hpresent : ∀ b, A.present l b = ((B r b).elim (B l b) (upd (B l b))).isSome) :
    view (updBlocks B l r upd) = A := by
  have heq : ∀ j b, updBlocks B l r upd j b
      = if j = l then (B r b).elim (B l b) (upd (B l b)) else B j b := fun _ _ => rfl
  refine AbsBitmaps.ext ?_ ?_ ?_ <;> funext j
  · funext k a
    by_cases hj : j = l
    · rw [hj, hbits, view_bits, heq, if_pos rfl]
    · rw [(hother j hj).1, view_bits, heq, if_neg hj, view_bits]
  · funext b
    by_cases hj : j = l
    · rw [hj, hmarked, view_marked, heq, if_pos rfl]
    · rw [(hother j hj).2.1, view_marked, heq, if_neg hj, view_marked]
  · funext b
    by_cases hj : j = l
    · rw [hj, hpresent, view_present, heq, if_pos rfl]
    · rw [(hother j hj).2.2, view_present, heq, if_neg hj, view_present]

theorem view_merge2 : view (updBlocks B l r fun o n => some (mergeNode o n)) = (view B).merge2 l r := by
  refine view_updBlocks (fun j hj => ?_) (fun k a => ?_) (fun b => ?_) fun b => ?_
  · simp [merge2, hj]
  · simp only [merge2, view_bits, decide_true, Bool.true_and]
    cases B r (a / 4096) <;> simp [bit_mergeNode]
  · simp only [merge2, view_marked]
    cases B r b <;> simp [recalc_mergeNode]
  · simp only [merge2, view_present, decide_true, Bool.true_and]
    cases B r b <;> simp

theorem view_mark : view (updBlocks B l r fun o n =>
    some { o.getD (newNode n.addr) with recalc := true }) = (view B).mark l r := by
  refine view_updBlocks (fun j hj => ?_) (fun k a => ?_) (fun b => ?_) fun b => ?_
  · simp [mark, hj]
  · simp only [mark, view_bits]
    cases B r (a / 4096) with
    | none => rfl
    | some n =>
      cases B l (a / 4096) with
      | none => exact (Bitmap2.bit_zero n.addr true k _).symm
      | some o => rfl
  · simp only [mark, view_marked, view_present, decide_true, Bool.true_and]
    cases B r b <;> simp
  · simp only [mark, view_present, decide_true, Bool.true_and]
    cases B r b <;> simp

theorem view_unmark : view (updBlocks B i i fun _ n => some { n with recalc := false })
    = (view B).unmark i := by
  refine view_updBlocks (fun j hj => ?_) (fun k a => ?_) (fun b => ?_) fun b => ?_
  · simp [unmark, hj]
  · rw [unmark, view_bits]
    cases B i (a / 4096) <;> rfl
  · simp only [unmark, decide_true, Bool.not_true, Bool.and_false]
    cases B i b <;> rfl
  · rw [unmark, view_present]
    cases B i b <;> rfl

theorem view_clearMarked : view (updBlocks B i i fun _ n =>
    some (if n.recalc then { n with bm1 := .zero } else n)) = (view B).clearMarked i := by
  refine view_updBlocks (fun j hj => ?_) (fun k a => ?_) (fun b => ?_) fun b => ?_
  · simp [clearMarked, hj]
  · simp only [clearMarked, view_bits, view_marked, decide_true, Bool.true_and]
    cases B i (a / 4096) with
    | none => rfl
    | some n => cases hn : n.recalc <;> simp [hn]
  · rw [clearMarked, view_marked]
    cases B i b with
    | none => rfl
    | some n => cases hn : n.recalc <;> simp [hn]
  · rw [clearMarked, view_present]
    cases B i b <;> rfl

theorem view_merge2Marked : view (updBlocks B l r fun o n =>
    o.map fun o => if o.recalc then mergeNode (some o) n else o) = (view B).merge2Marked l r := by
  refine view_updBlocks (fun j hj => ?_) (fun k a => ?_) (fun b => ?_) fun b => ?_
  · simp [merge2Marked, hj]
  · simp only [merge2Marked, view_bits, view_marked, decide_true, Bool.true_and]
    cases B r (a / 4096) with
    | none => simp
    | some n =>
      cases B l (a / 4096) with
      | none => simp
      | some o => cases ho : o.recalc <;> simp [ho, bit_mergeNode]
  · rw [merge2Marked, view_marked]
    cases B r b with
    | none => rfl
    | some n =>
      cases B l b with
      | none => rfl
      | some o => cases ho : o.recalc <;> simp [ho, recalc_mergeNode]
  · rw [merge2Marked, view_present]
    cases B r b with
    | none => rfl
    | some n => simp

/-! ### The operations -/

theorem Sound.bmMerge2 (h : Sound s) (hlr : l ≠ r) :
    Becomes (s.bmMerge2 l r) ((view s.block).merge2 l r) := by
  obtain ⟨s', hok, hs', hblock⟩ := h.forEach l r (Bitmaps.merge2Body l)
    (fun o n => some (mergeNode o n)) fun ht hp => ht.merge2Body hlr hp
  exact ⟨s', by rw [Bitmaps.bmMerge2, vgAssert_bind hlr, hok], hs', hblock ▸ view_merge2⟩

theorem Sound.bmMark (h : Sound s) (l r : ι) :
    Becomes (s.bmMark l r) ((view s.block).mark l r) := by
  obtain ⟨s', hok, hs', hblock⟩ := h.forEach l r (Bitmaps.markBody l)
    (fun o n => some { o.getD (newNode n.addr) with recalc := true }) fun ht hp => ht.markBody hp
  exact ⟨s', hok, hs', hblock ▸ view_mark⟩

theorem Sound.bmUnmark (h : Sound s) (i : ι) :
    Becomes (s.bmUnmark i) ((view s.block).unmark i) := by
  obtain ⟨s', hok, hs', hblock⟩ := h.forEach i i _
    (fun _ n => some { n with recalc := false }) fun ht hp =>
    have ⟨ht', hblock⟩ := ht.ownBody hp (f := fun n => { n with recalc := false }) fun _ => rfl
    ⟨_, rfl, ht', hblock, rfl⟩
  exact ⟨s', hok, hs', hblock ▸ view_unmark⟩

theorem Sound.bmMerge2Marked (h : Sound s) (hlr : l ≠ r) :
    Becomes (s.bmMerge2Marked l r) ((view s.block).merge2Marked l r) := by
  obtain ⟨s', hok, hs', hblock⟩ := h.forEach l r (Bitmaps.merge2MarkedBody l)
    (fun o n => o.map fun o => if o.recalc then mergeNode (some o) n else o)
    fun ht hp => ht.merge2MarkedBody hlr hp
  exact ⟨s', by rw [Bitmaps.bmMerge2Marked, vgAssert_bind hlr, hok], hs', hblock ▸ view_merge2Marked⟩

theorem Sound.bmClearMarked (h : Sound s) (i : ι) :
    Becomes (s.bmClearMarked i) ((view s.block).clearMarked i) := by
  have hbody : ∀ {t : Bitmaps ι} {a p}, Sound t → t.lookup i a = some p →
      SetsBlock t i i a (.ok (if (t.node p).recalc then t.bm2Clear p else t))
        (some (if (t.node p).recalc then { t.node p with bm1 := .zero } else t.node p)) := by
    intro t a p ht hp
    split_ifs with hmark
    · obtain ⟨ht', hblock⟩ := ht.ownBody hp (f := fun n => { n with bm1 := .zero }) fun _ => rfl
      exact ⟨_, rfl, ht', hblock, rfl⟩
    · exact ⟨t, rfl, ht, (setBlock_eq_self (block_of_lookup hp)).symm, rfl⟩
  obtain ⟨s', hok, hs', hblock⟩ := h.forEach i i _
    (fun _ n => some (if n.recalc then { n with bm1 := .zero } else n)) hbody
  exact ⟨s', hok, hs', hblock ▸ view_clearMarked⟩

/-! ### Queries about bits -/

theorem bm0IsSet_decide (m : Bm0) (x : ℕ) : decide (bm0IsSet m x ≠ 0) = m.bit x := by
  rw [Bool.eq_iff_iff, decide_eq_true_iff]
  exact bm0IsSet_ne_zero_iff

theorem or_ne_zero_iff (x y : BitVec 64) : x ||| y ≠ 0 ↔ x ≠ 0 ∨ y ≠ 0 := by
  change ¬ (x ||| y = 0#64) ↔ _
  rw [BitVec.or_eq_zero_iff, not_and_or]
  rfl

theorem bm0IsSet_or_decide (m m' : Bm0) (x : ℕ) :
    decide (bm0IsSet m x ||| bm0IsSet m' x ≠ 0) = (m.bit x || m'.bit x) := by
  rw [decide_eq_decide.mpr (or_ne_zero_iff _ _), decide_or, bm0IsSet_decide, bm0IsSet_decide]

/-- The bits of some kinds: those that are not asked for are not looked at. -/
def anyOf (kinds : Access → Bool) (bit : Access → Bool) : Bool :=
  (kinds .load && bit .load) || (kinds .store && bit .store)

omit [DecidableEq ι] in
theorem holdsAt_eq (kinds : Access → Bool) (a : ℕ) :
    holdsAt B i (fun p1 x => anyOf kinds fun k => (p1.get k).bit x) a
      = anyOf kinds fun k => (view B).bits i k a := by
  simp only [holdsAt, view_bits, anyOf]
  cases B i (a / 4096) with
  | none => simp
  | some n => rfl

/-- A query for some kinds of accesses in a range. -/
theorem Sound.bmHasKinds (h : Sound s) {test : Bitmap1 → UWord → Except Abort Bool}
    (kinds : Access → Bool) (i : ι) (a1 : ℕ) {a2 : ℕ} (h2 : a2 ≤ 2 ^ 64 - 4096)
    (htest : ∀ p1 x, test p1 x = .ok (anyOf kinds fun k => (p1.get k).bit x)) :
    Answers s (s.bmHasAnyOf i test a1 a2)
      (anyIn a1 a2 fun a => anyOf kinds fun k => (view s.block).bits i k a) := by
  obtain ⟨s', hok, hs'⟩ := h.bmHasAnyOf htest i a1 h2
  refine ⟨s', ?_, hs'⟩
  rw [hok, funext (holdsAt_eq (B := s.block) (i := i) kinds)]

theorem Sound.bmHasAnyAccess (h : Sound s) (i : ι) (a1 a2 : ℕ) (h2 : a2 ≤ 2 ^ 64 - 4096) :
    Answers s (s.bmHasAnyAccess i a1 a2)
      (anyIn a1 a2 fun a => anyOf both fun k => (view s.block).bits i k a) :=
  h.bmHasKinds both i a1 h2 fun p1 x => congrArg Except.ok (bm0IsSet_or_decide p1.bm0R p1.bm0W x)

/-! ### Removal -/

/-- A key's node is taken out of the list, and an iteration from the key on meets what followed. -/
theorem osetFrom_filter {done : List (UWord × Bm2Ptr)}
    (h : KeyedList.Sorted (done ++ (a, p) :: rest)) :
    (done ++ (a, p) :: rest).filter (fun e => e.1 ≠ a) = done ++ rest
      ∧ osetFrom (done ++ rest) a = rest := by
  obtain ⟨-, hcons, hcross⟩ := pairwise_append.mp h
  have hdone : ∀ e ∈ done, e.1 < a := fun e he => hcross e he _ mem_cons_self
  have hrest : ∀ e ∈ rest, a < e.1 := fun e he => (pairwise_cons.mp hcons).1 e he
  constructor
  · rw [filter_append, filter_cons_of_neg (by simp),
      filter_eq_self.mpr fun e he => by simpa using (hdone e he).ne,
      filter_eq_self.mpr fun e he => by simpa using (hrest e he).ne']
  · rw [osetFrom, dropWhile_append_of_pos fun e he => by simpa using hdone e he]
    cases rest with
    | nil => rfl
    | cons e rest =>
      rw [dropWhile_cons_of_neg]
      simpa using (hrest e mem_cons_self).le

omit [DecidableEq ι] in
/-- Whether a block is cleared is a matter of this block. -/
theorem isCleared_congr {B' : ι → UWord → Option Bitmap2} {b : ℕ} (h : B' i b = B i b) :
    (view B').isCleared i b = (view B).isCleared i b := by
  have hbits : ∀ k a, b * 4096 ≤ a → a < (b + 1) * 4096 →
      (view B').bits i k a = (view B).bits i k a := by
    intro k a h₁ h₂
    have hdiv : a / 4096 = b := by omega
    rw [view_bits, view_bits, hdiv, h]
  rw [isCleared, isCleared, view_marked, view_marked, h]
  congr 2
  exact anyIn_congr fun a h₁ h₂ => by rw [hbits .load a h₁ h₂, hbits .store a h₁ h₂]

/-- The blocks without the cleared ones of a list. -/
def dropCleared (B : ι → UWord → Option Bitmap2) (i : ι) (l : List (UWord × Bm2Ptr)) :
    ι → UWord → Option Bitmap2 :=
  fun j b => if j = i ∧ (find l b).isSome ∧ (view B).isCleared i b then none else B j b

/-- A node that is not cleared may be left out of the list. -/
theorem dropCleared_cons
    (hnot : find rest a = none) (hkeep : (view B).isCleared i a = false) :
    dropCleared B i rest = dropCleared B i ((a, p) :: rest) := by
  funext j b
  rw [dropCleared, dropCleared, find_cons]
  by_cases hb : a = b
  · subst b
    simp [hnot, hkeep]
  · rw [if_neg hb]

/-- A cleared node is taken away, and the rest of the list follows. -/
theorem dropCleared_setBlock
    (hdrop : (view B).isCleared i a = true) :
    dropCleared (setBlock B i a none) i rest = dropCleared B i ((a, p) :: rest) := by
  funext j b
  rw [dropCleared, dropCleared, find_cons]
  by_cases hj : j = i
  · subst j
    by_cases hb : a = b
    · subst b
      simp [hdrop]
    · have hne : ¬ (i = i ∧ b = a) := fun h => hb h.2.symm
      rw [if_neg hb, isCleared_congr (setBlock_of_ne B hne), setBlock_of_ne B hne]
  · rw [if_neg fun h => hj h.1, if_neg fun h => hj h.1, setBlock_of_ne B fun h => hj h.1]

/-- **The loop that removes nodes**, from any node on: `done` has been passed. -/
theorem Sound.removeClearedLoop (i : ι) : ∀ (rest done : List (UWord × Bm2Ptr)) (n : ℕ) (t : Bitmaps ι),
    Sound t → (t.bm i).oset = done ++ rest → rest.length ≤ n →
    ∃ s', removeClearedLoop i n rest t = .ok s' ∧ Sound s'
      ∧ s'.block = dropCleared t.block i rest := by
  intro rest
  induction rest with
  | nil =>
    intro done n t ht _ _
    refine ⟨t, by cases n <;> rfl, ht, ?_⟩
    funext j b
    rw [dropCleared, if_neg]
    simp
  | cons e rest ih =>
    obtain ⟨a, p⟩ := e
    intro done n t ht hoset hn
    obtain ⟨n, rfl⟩ : ∃ m, n = m + 1 := ⟨n - 1, by simp only [length_cons] at hn; omega⟩
    have hlen : rest.length ≤ n := le_of_succ_le_succ hn
    have hsorted : KeyedList.Sorted (done ++ (a, p) :: rest) := hoset ▸ ht.sorted i
    have hl : t.lookup i a = some p := by
      rw [ht.lookup_iff, hoset]
      exact mem_append_right _ mem_cons_self
    have haddr := ht.addr_of_lookup hl
    have hbelow : @LT.lt ℕ _ a (2 ^ 52 - 1) := ht.below_of_lookup hl
    have hnot := KeyedList.Sorted.find_tail (pairwise_append.mp hsorted).2.1
    have hpassed : done ++ (a, p) :: rest = (done ++ [(a, p)]) ++ rest := by
      rw [append_assoc, singleton_append]
    have hmarked : (view t.block).marked i a = (t.node p).recalc := by
      rw [view_marked, block_of_lookup hl]
      rfl
    rw [Bitmaps.removeClearedLoop]
    dsimp only
    rw [haddr]
    cases hmark : (t.node p).recalc with
    | false =>
      have hkeep : (view t.block).isCleared i a = false := by
        rw [isCleared, hmarked, hmark, Bool.false_and]
      rw [if_neg Bool.false_ne_true, ← dropCleared_cons hnot hkeep]
      exact ih (done ++ [(a, p)]) n t ht (hoset.trans hpassed) hlen
    | true =>
      have hmod : (a + 1) % 2 ^ 64 = a + 1 := mod_eq_of_lt (by omega)
      obtain ⟨t₁, hok₁, ht₁, hsame⟩ :=
        ht.bmHasAnyAccess i (a * 4096) ((a + 1) * 4096) (by omega)
      rw [if_pos rfl, hmod, makeAddress_zero (by omega), makeAddress_zero (by omega), hok₁, ok_bind]
      have hcleared : (view t.block).isCleared i a = !anyIn (a * 4096) ((a + 1) * 4096)
          (fun x => anyOf both fun k => (view t.block).bits i k x) := by
        rw [isCleared, hmarked, hmark, Bool.true_and]
        rfl
      dsimp only
      cases hany : anyIn (a * 4096) ((a + 1) * 4096)
          (fun x => anyOf both fun k => (view t.block).bits i k x) with
      | true =>
        have hkeep : (view t.block).isCleared i a = false := by rw [hcleared, hany, Bool.not_true]
        rw [if_pos rfl, ← dropCleared_cons hnot hkeep, ← hsame.block]
        exact ih (done ++ [(a, p)]) n t₁ ht₁ ((hsame.oset i).trans (hoset.trans hpassed)) hlen
      | false =>
        have hdrop : (view t.block).isCleared i a = true := by rw [hcleared, hany, Bool.not_false]
        obtain ⟨t₂, hok₂, ht₂, hblock₂, hoset₂⟩ := ht₁.bm2Remove (hsame.lookup ▸ hl)
        obtain ⟨hfilter, hfrom⟩ := osetFrom_filter hsorted
        have hrest : (t₂.bm i).oset = done ++ rest := by rw [hoset₂, hsame.oset, hoset, hfilter]
        rw [if_neg Bool.false_ne_true, hok₂, ok_bind, hrest, hfrom,
          ← dropCleared_setBlock hdrop, ← hsame.block, ← hblock₂]
        exact ih done n t₂ ht₂ hrest hlen

theorem view_dropCleared {oset : List (UWord × Bm2Ptr)}
    (hkeys : ∀ b, (find oset b).isSome = (B i b).isSome) :
    view (dropCleared B i oset) = (view B).removeClearedMarked i := by
  have heq : ∀ j b, dropCleared B i oset j b
      = if decide (j = i) && (view B).isCleared i b then none else B j b := by
    intro j b
    rw [dropCleared, hkeys]
    by_cases hj : j = i
    · subst j
      cases B i b <;> simp
    · simp [hj]
  refine AbsBitmaps.ext ?_ ?_ ?_
  · funext j k a
    rw [view_bits, heq]
    split_ifs with hj
    · rw [and_eq_true, decide_eq_true_iff, isCleared, and_eq_true] at hj
      obtain ⟨rfl, -, hnone⟩ := hj
      -- a cleared block has no bits
      cases hbit : (view B).bits j k a with
      | false => exact hbit.symm
      | true =>
        rw [anyIn_eq_true_iff.mpr ⟨a, by omega, by cases k <;> simp [hbit]⟩] at hnone
        exact absurd hnone false_ne_true
    · rfl
  · funext j b
    change _ = ((view B).marked j b && !(decide (j = i) && (view B).isCleared i b))
    rw [view_marked, heq, view_marked]
    cases decide (j = i) && (view B).isCleared i b <;> simp
  · funext j b
    change _ = ((view B).present j b && !(decide (j = i) && (view B).isCleared i b))
    rw [view_present, heq, view_present]
    cases decide (j = i) && (view B).isCleared i b <;> simp

theorem Sound.bmRemoveClearedMarked (h : Sound s) (i : ι) :
    Becomes (s.bmRemoveClearedMarked i) ((view s.block).removeClearedMarked i) := by
  obtain ⟨s', hok, hs', hblock⟩ :=
    Sound.removeClearedLoop i (s.bm i).oset [] _ s h rfl le_rfl
  refine ⟨s', hok, hs', ?_⟩
  rw [hblock]
  refine view_dropCleared fun b => ?_
  rw [block, Option.isSome_map]
  rfl

/-! ### Queries about one block -/

theorem Sound.bmHas1 (h : Sound s) (i : ι) (a : ℕ) (accessType : BmAccessType) :
    Answers s (.ok (s.bmHas1 i a accessType))
      ((view s.block).bits i (if accessType = .eLoad then .load else .store) a) := by
  obtain ⟨s', hlookup, hs', hsame⟩ := h.bm2Lookup i (addressMsb a)
  refine ⟨s', ?_, hs', hsame⟩
  rw [Bitmaps.bmHas1, hlookup, addressMsb_eq, addressLsb_eq]
  dsimp only
  cases hp : s.lookup i (a / 4096) with
  | none =>
    have hnone : s.block i (a / 4096) = none := block_eq_none_iff.mpr hp
    simp only [view_bits, hnone]
    rfl
  | some p =>
    simp only [view_bits, block_of_lookup hp, hsame.node, Option.any_some, bm0IsSet_decide]
    split_ifs <;> rfl

/-- The kinds of accesses that conflict with one. -/
def conflicting : Access → Access → Bool
  | .load => only .store
  | .store => both

/-- **A conflict of an aligned access.** -/
theorem Sound.bmAlignedHasConflictWith (h : Sound s) (i : ι) (k : Access) (a size : ℕ)
    (ha : a % 8 + size ≤ 8) :
    Answers s (.ok (s.bmAlignedHasConflictWith i k a size)) (anyIn a (a + size) fun x =>
      anyOf (conflicting k) fun k' => (view s.block).bits i k' x) := by
  obtain ⟨s', hlookup, hs', hsame⟩ := h.bm2Lookup i (addressMsb a)
  refine ⟨s', ?_, hs', hsame⟩
  rw [Bitmaps.bmAlignedHasConflictWith, hlookup, addressMsb_eq, addressLsb_eq, scaledSize_eq (by omega)]
  have hdiv : ∀ x, a ≤ x → x < a + size → x / 4096 = a / 4096 := fun x _ _ => by omega
  dsimp only
  cases hp : s.lookup i (a / 4096) with
  | none =>
    have hnone : s.block i (a / 4096) = none := block_eq_none_iff.mpr hp
    rw [anyIn_eq_false fun x h₁ h₂ => by simp [anyOf, view_bits, hdiv x h₁ h₂, hnone]]
  | some p =>
    have hany : ∀ k', decide (bm0IsAnySet ((s.node p).bm1.get k') (a % 4096) size ≠ 0)
        = anyIn a (a + size) fun x => (view s.block).bits i k' x := by
      intro k'
      rw [Bool.eq_iff_iff, decide_eq_true_iff, bm0IsAnySet_ne_zero_iff (by omega) (by omega),
        anyIn_eq_true_iff]
      have hat : ∀ x, a ≤ x → x < a + size →
          (view s.block).bits i k' x = ((s.node p).bm1.get k').bit (x % 4096) := by
        intro x h₁ h₂
        rw [view_bits, hdiv x h₁ h₂, block_of_lookup hp]
        rfl
      constructor
      · rintro ⟨x, hx, hbit⟩
        have hmod : (a / 4096 * 4096 + x) % 4096 = x := by omega
        exact ⟨a / 4096 * 4096 + x, by omega, by rwa [hat _ (by omega) (by omega), hmod]⟩
      · rintro ⟨x, hx, hbit⟩
        exact ⟨x % 4096, by omega, by rwa [← hat x hx.1 hx.2]⟩
    simp only [hsame.node]
    refine congrArg Except.ok ?_
    cases k with
    | load => exact congrArg (·, s') (hany .store)
    | store =>
      have hboth := (anyIn_or a (a + size) (fun x => (view s.block).bits i .load x)
        fun x => (view s.block).bits i .store x).symm
      rw [← hany .load, ← hany .store, ← decide_or, ← decide_eq_decide.mpr (or_ne_zero_iff _ _)]
        at hboth
      exact congrArg (·, s') hboth

end Bitmaps

end Valgrind.Drd
