import Valgrind.Aspacemgr.Advisory
import Valgrind.Foundations.Hoare

/-!
# Core/MallocFree — zeroed and permanent blocks and the superblocks of `m_mallocfree.c`

* `VG_(arena_calloc)` checks its product against the two factors, which is neither necessary nor
  sufficient for the product to fit (`calloc_check_iff`).
* `VG_(arena_perm_malloc)` rounds the size it is asked for, but not the address it hands out, so
  that the alignment of a block is up to the calls before (`perm_malloc_served`).
* `reclaimSuperblock` reads one slot behind the superblocks in use, which a full array does not have
  (`sblocks_in_bounds`).
-/

namespace Valgrind

open List
open Aspacemgr (pageSize alignUp le_alignUp and_mask)
open Aspacemgr.Aspacem (pgroundup)
open Refinement (run Meets exists_of_run_cons history_run)
open Hoare (Spec Keeps)

/-! ## `VG_(arena_calloc)` -/

/-- The product, as a `SizeT`. -/
def callocSize (nmemb bytesPerMemb : ℕ) : ℕ := nmemb * bytesPerMemb % 2 ^ 64

/-- The check against overflow. -/
abbrev CallocCheck (nmemb bytesPerMemb : ℕ) : Prop :=
  callocSize nmemb bytesPerMemb ≥ nmemb ∧ callocSize nmemb bytesPerMemb ≥ bytesPerMemb

/-- `VG_(arena_calloc)`, over the arena's `VG_(arena_malloc)`; a block is its usable size. -/
def arenaCalloc (arenaMalloc : ℕ → Except Abort (Option ℕ)) (nmemb bytesPerMemb : ℕ) :
    Except Abort (Option ℕ) := do
  vgAssert (CallocCheck nmemb bytesPerMemb)
  arenaMalloc (callocSize nmemb bytesPerMemb)

/-- **The check is exact**, and a block holds all the elements, iff the product fits and no factor
is zero alone, or the product is less than a factor beyond a multiple of `2 ^ 64`. -/
theorem calloc_check_iff (nmemb bytesPerMemb : ℕ) :
    ((CallocCheck nmemb bytesPerMemb ↔ nmemb * bytesPerMemb < 2 ^ 64)
      ∧ ∀ arenaMalloc, (∀ size usable, arenaMalloc size = .ok (some usable) → size ≤ usable) →
        ∀ usable, arenaCalloc arenaMalloc nmemb bytesPerMemb = .ok (some usable) →
          nmemb * bytesPerMemb ≤ usable)
    ↔ (nmemb * bytesPerMemb < 2 ^ 64 ∧ (nmemb = 0 ↔ bytesPerMemb = 0))
      ∨ ∃ q, 0 < q ∧ q * 2 ^ 64 ≤ nmemb * bytesPerMemb
        ∧ nmemb * bytesPerMemb < q * 2 ^ 64 + max nmemb bytesPerMemb := by
  refine (and_iff_left_of_imp fun hexact arenaMalloc hmalloc usable hrun => ?_).trans ?_
  · obtain ⟨hcheck, hrun⟩ := vgAssert_bind_eq_ok.mp hrun
    have hsize := hmalloc _ _ hrun
    rwa [callocSize, Nat.mod_eq_of_lt (hexact.mp hcheck)] at hsize
  rw [CallocCheck, callocSize]
  rcases lt_or_ge (nmemb * bytesPerMemb) (2 ^ 64) with hfits | hover
  · -- without overflow the check refuses a zero factor beside another
    have hq : ¬ ∃ q, 0 < q ∧ q * 2 ^ 64 ≤ nmemb * bytesPerMemb
        ∧ nmemb * bytesPerMemb < q * 2 ^ 64 + max nmemb bytesPerMemb := by
      rintro ⟨q, hq, hle, -⟩
      omega
    rw [Nat.mod_eq_of_lt hfits, iff_true_right hfits, and_iff_right hfits, or_iff_left hq]
    rcases Nat.eq_zero_or_pos nmemb with rfl | hn
    · simp
    rcases Nat.eq_zero_or_pos bytesPerMemb with rfl | hb
    · simp
    exact iff_of_true ⟨Nat.le_mul_of_pos_right _ hb, Nat.le_mul_of_pos_left _ hn⟩
      (iff_of_false hn.ne' hb.ne')
  · -- with it the check looks at what is left of the product
    rw [iff_false_right hover.not_gt, or_iff_right fun h => hover.not_gt h.1]
    constructor
    · intro hsmall
      exact ⟨nmemb * bytesPerMemb / 2 ^ 64, by omega, by omega, by omega⟩
    · rintro ⟨q, hq, hle, hlt⟩
      omega

/-- Eight gigabytes for `(2 ^ 32 + 1) ^ 2` bytes. -/
theorem calloc_check_passes_overflow :
    arenaCalloc (fun size => .ok (some size)) (2 ^ 32 + 1) (2 ^ 32 + 1) = .ok (some (2 ^ 33 + 1))
      ∧ 2 ^ 64 ≤ (2 ^ 32 + 1) * (2 ^ 32 + 1)
      ∧ ¬ CallocCheck 0 1 ∧ 0 * 1 < 2 ^ 64 := by
  refine ⟨rfl, ?_, ?_, ?_⟩ <;> decide

/-! ## `VG_(arena_perm_malloc)` -/

/-- What an arena keeps for permanent blocks: `perm_malloc_current` and `perm_malloc_limit`. -/
structure PermArena where
  clientmem : Bool
  minSblockSzB : ℕ
  min_lt : minSblockSzB < 2 ^ 64
  current : ℕ
  limit : ℕ
  /-- The superblocks mapped so far: where each starts, and its size. -/
  sblocks : List (ℕ × ℕ)

/-- A call, with the kernel's answer should it map a superblock. -/
structure PermCall where
  size : ℕ
  align : ℕ
  sres : Option ℕ

namespace PermArena

variable {a a' : PermArena} {c : PermCall} {p : ℕ} {b : ℕ × ℕ}

/-- The size of the superblock `newSuperblock` maps; its header has 32 bytes. -/
def newSzB (a : PermArena) (cszB : ℕ) : ℕ := pgroundup (max a.minSblockSzB ((cszB + 32) % 2 ^ 64))

/-- `newSuperblock`, whose whole memory becomes the room for permanent blocks. -/
def newSuperblock (a : PermArena) (sres : Option ℕ) (cszB : ℕ) : Except Abort PermArena :=
  match sres with
  | none => .error (if a.clientmem then .nullPointer else .exit 1 "newSuperblock")
  | some sb => do
    vgAssert (sb ≠ 0)
    vgAssert (sb % 16 = 0)
    return { a with
      limit := sb + a.newSzB cszB - 1
      current := sb
      sblocks := (sb, a.newSzB cszB) :: a.sblocks }

/-- `VG_(arena_perm_malloc)`. -/
def arenaPermMalloc (a : PermArena) (c : PermCall) : Except Abort (ℕ × PermArena) := do
  let size := (c.size + (c.align - 1)) % 2 ^ 64 &&& (2 ^ 64 - 1 - (c.align - 1))
  let a ← if (a.current + size) % 2 ^ 64 > a.limit then
      a.newSuperblock c.sres size
    else pure a
  return (a.current, { a with current := (a.current + size) % 2 ^ 64 })

/-- **A call is served well** if nothing overflows and the cursor, where there is room behind it, is
aligned. -/
def Fits (a : PermArena) (c : PermCall) : Prop :=
  c.size + c.align + 32 ≤ 2 ^ 64 ∧ a.current + alignUp c.size c.align < 2 ^ 64
    ∧ (a.current + alignUp c.size c.align ≤ a.limit → c.align ∣ a.current)

/-- A call for some bytes at a power of two up to the page size; the kernel answers with pages that
are not mapped. -/
def Admitted (a : PermArena) (c : PermCall) : Prop :=
  0 < c.size ∧ (∃ k ≤ 12, c.align = 2 ^ k)
    ∧ ∀ sb ∈ c.sres, ∀ n, n = a.newSzB (alignUp c.size c.align) →
      sb % 4096 = 0 ∧ 0 < n ∧ sb + n < 2 ^ 64 ∧ ∀ s ∈ a.sblocks, s.1 + s.2 ≤ sb ∨ sb + n ≤ s.1

/-- A range lies in a superblock. -/
def Mapped (a : PermArena) (b : ℕ × ℕ) : Prop :=
  ∃ s ∈ a.sblocks, s.1 ≤ b.1 ∧ b.1 + b.2 ≤ s.1 + s.2

/-- A range that was handed out: it lies in a superblock, and not in the room that is left. -/
def Kept (a : PermArena) (b : ℕ × ℕ) : Prop :=
  a.Mapped b ∧ (b.1 + b.2 ≤ a.current ∨ a.limit < b.1)

/-- The room that is left lies in a superblock. -/
def Room (a : PermArena) : Prop :=
  a.limit = 0 ∧ a.current = 0 ∨ ∃ s ∈ a.sblocks, s.1 ≤ a.current
    ∧ a.current ≤ a.limit ∧ a.limit < s.1 + s.2

theorem round_eq {s k : ℕ} (hk : k ≤ 12) (h : s + 2 ^ k ≤ 2 ^ 64) :
    (s + (2 ^ k - 1)) % 2 ^ 64 &&& (2 ^ 64 - 1 - (2 ^ k - 1)) = alignUp s (2 ^ k) := by
  have hpos := Nat.two_pow_pos k
  rw [Nat.mod_eq_of_lt (by omega), and_mask _ (by omega) (by omega), alignUp,
    Nat.add_sub_assoc hpos]

theorem alignUp_lt (s : ℕ) {n : ℕ} (hn : 0 < n) : alignUp s n < s + n := by
  have := Nat.div_mul_le_self (s + n - 1) n
  rw [alignUp]
  omega

theorem le_newSzB {n : ℕ} (hn : n + 32 < 2 ^ 64) (hpos : 0 < a.newSzB n) : n + 32 ≤ a.newSzB n := by
  have hmin := a.min_lt
  rw [newSzB, pgroundup, pageSize, Nat.mod_eq_of_lt hn] at *
  omega

theorem newSuperblock_ok {sres : Option ℕ} {n : ℕ} (h : a.newSuperblock sres n = .ok a') :
    ∃ sb ∈ sres, a' = { a with
      limit := sb + a.newSzB n - 1, current := sb, sblocks := (sb, a.newSzB n) :: a.sblocks } := by
  cases sres with
  | none => cases h
  | some sb =>
    rw [newSuperblock, vgAssert_bind_eq_ok, vgAssert_bind_eq_ok] at h
    exact ⟨sb, rfl, (Except.ok.inj h.2.2).symm⟩

/-- **A call that fits** gets an aligned range of its own. -/
theorem Room.step (hroom : a.Room) (h : a.Admitted c ∧ a.Fits c)
    (hstep : a.arenaPermMalloc c = .ok (p, a')) :
    a'.Room ∧ c.align ∣ p ∧ a'.Kept (p, c.size)
      ∧ ∀ b, a.Kept b → a'.Kept b ∧ (b.1 + b.2 ≤ p ∨ p + c.size ≤ b.1) := by
  obtain ⟨⟨hpos, ⟨k, hk, hal⟩, hsres⟩, hsmall, hwrap, hcursor⟩ := h
  have hk0 := Nat.two_pow_pos k
  have hround := round_eq hk (s := c.size) (by omega)
  rw [← hal] at hk0 hround
  have hle := le_alignUp c.size hk0
  have hlt := alignUp_lt c.size hk0
  rw [arenaPermMalloc, hround, Nat.mod_eq_of_lt hwrap] at hstep
  generalize alignUp c.size c.align = n at *
  split_ifs at hstep with hfull
  · -- a new superblock, at the start of a page
    obtain ⟨a₁, hnew, hret⟩ := bind_eq_ok.mp hstep
    obtain ⟨sb, hsb, rfl⟩ := newSuperblock_ok hnew
    obtain ⟨hpage, hnpos, htop, hfresh⟩ := hsres sb hsb _ rfl
    have hsz := le_newSzB (by omega) hnpos
    cases hret
    have hcur : (sb + n) % 2 ^ 64 = sb + n := Nat.mod_eq_of_lt (by omega)
    have hdvd : c.align ∣ sb :=
      hal ▸ (Nat.pow_dvd_pow 2 hk).trans (Nat.dvd_of_mod_eq_zero hpage)
    refine ⟨.inr ⟨_, mem_cons_self, ?_⟩, hdvd, ⟨⟨_, mem_cons_self, ?_⟩, .inl ?_⟩,
      fun b ⟨⟨t, ht, hb⟩, _⟩ =>
        have := hfresh t ht
        ⟨⟨⟨t, mem_cons_of_mem _ ht, hb⟩, ?_⟩, ?_⟩⟩ <;> dsimp only <;> omega
  · -- the room behind the cursor
    cases hstep
    obtain ⟨hzero, -⟩ | ⟨s, hs, hlo, hmid, hhi⟩ := hroom
    · omega
    have hcur : (a.current + n) % 2 ^ 64 = a.current + n := Nat.mod_eq_of_lt hwrap
    refine ⟨.inr ⟨s, hs, ?_⟩, hcursor (by omega), ⟨⟨s, hs, ?_⟩, .inl ?_⟩,
      fun b ⟨hb, hout⟩ => ⟨⟨hb, ?_⟩, by omega⟩⟩ <;> dsimp only <;> omega

/-! ### Runs -/

/-- **The blocks of a run are served**: each is aligned and lies in a superblock, and no two of them
overlap. -/
def Served (a : PermArena) (calls : List PermCall) (ps : List ℕ) : Prop :=
  (∀ b ∈ calls.zip ps, b.1.align ∣ b.2 ∧ a.Mapped (b.2, b.1.size))
    ∧ (calls.zip ps).Pairwise fun b d => b.2 + b.1.size ≤ d.2 ∨ d.2 + d.1.size ≤ b.2

/-- What was handed out before a run stays apart from what it hands out. -/
theorem Room.run {calls : List PermCall} {ps : List ℕ} (hroom : a.Room)
    (h : Meets arenaPermMalloc (fun a c => a.Admitted c ∧ a.Fits c) a calls)
    (hrun : run arenaPermMalloc a calls = .ok (ps, a')) :
    a'.Served calls ps ∧ ∀ b, a.Kept b → a'.Mapped b
      ∧ ∀ d ∈ calls.zip ps, b.1 + b.2 ≤ d.2 ∨ d.2 + d.1.size ≤ b.1 := by
  induction calls generalizing a ps with
  | nil =>
    cases hrun
    exact ⟨⟨by simp, by simp⟩, fun b hb => ⟨hb.1, by simp⟩⟩
  | cons c calls ih =>
    obtain ⟨p, ps', a₁, rfl, hstep, hrun⟩ := exists_of_run_cons hrun
    obtain ⟨hroom₁, hdvd, hkept, hall⟩ := hroom.step h.1 hstep
    obtain ⟨hserved, hrest⟩ := ih hroom₁ (h.2 _ _ hstep) hrun
    obtain ⟨hmapped, hapart⟩ := hrest _ hkept
    refine ⟨⟨forall_mem_cons.mpr ⟨⟨hdvd, hmapped⟩, hserved.1⟩,
      pairwise_cons.mpr ⟨hapart, hserved.2⟩⟩, fun b hb => ?_⟩
    obtain ⟨hb₁, hbp⟩ := hall b hb
    exact ⟨(hrest b hb₁).1, forall_mem_cons.mpr ⟨hbp, (hrest b hb₁).2⟩⟩

/-- The arena as `arena_init` leaves it. -/
def init (clientmem : Bool) (minSblockSzB : ℕ) (h : minSblockSzB < 2 ^ 64) : PermArena :=
  ⟨clientmem, minSblockSzB, h, 0, 0, []⟩

end PermArena

namespace PermArena

end PermArena

/-! ## The array of superblocks -/

/-- `sblocks`, of length `sblocks_size` and with 0 for NULL, and `sblocks_used`. -/
structure Sblocks where
  sblocks : List ℕ
  used : ℕ

namespace Sblocks

abbrev M := StateT Sblocks (Except Abort)

def read (i : ℕ) : M ℕ := do (← get).sblocks[i]?.elim (throw .wildAccess) pure

def write (i sb : ℕ) : M Unit := do
  if i < (← get).sblocks.length then modify fun a => { a with sblocks := a.sblocks.set i sb }
  else throw .wildAccess

/-- A full array is doubled, if the kernel has the memory. -/
def grow (memory : Bool) : M Unit := do
  let a ← get
  vgAssert (a.used ≤ a.sblocks.length)
  if a.used = a.sblocks.length then
    if memory then modify fun a => { a with sblocks := a.sblocks ++ .replicate a.sblocks.length 0 }
    else throw (.exit 1 "arena_init")

/-- The loop of the insertion, which moves the superblocks above the new one up. -/
def place (newSb : ℕ) : ℕ → M Unit
  | 0 => write 0 newSb
  | i + 1 => do
    let sb ← read i
    if sb > newSb then
      write (i + 1) sb
      place newSb i
    else write (i + 1) newSb

/-- The insertion in `VG_(arena_malloc)`. -/
def insert (newSb : ℕ) (memory : Bool) : M Unit := do
  grow memory
  let a ← get
  vgAssert (a.used < a.sblocks.length)
  place newSb a.used
  modify fun a => { a with used := a.used + 1 }

/-- The rounds of a binary search over `SizeT`s; `payload` is the `n_payload_bytes` behind the 32
bytes of a superblock's header. -/
def search (payload : ℕ → ℕ) (ad : ℕ) (outside absent : M ℕ) : ℕ → ℕ → ℕ → M ℕ
  | 0, _, _ => throw .diverges
  | fuel + 1, min, max => do
    if min ≤ max then
      let pos := min + (max - min) / 2
      if pos < (← get).used then
        let sb ← read pos
        if sb + 32 ≤ ad ∧ ad < sb + 32 + payload sb then pure sb
        else if sb + 32 ≤ ad then search payload ad outside absent fuel (pos + 1) max
        else search payload ad outside absent fuel min ((pos + 2 ^ 64 - 1) % 2 ^ 64)
      else outside
    else absent

def findSb (payload : ℕ → ℕ) (b fuel : ℕ) : M ℕ := do
  search payload b (throw .assertion)
    (throw (.panic "findSb: VG_(arena_free)() in wrong arena?")) fuel 0 (← get).used

/-- `maybe_findSb`, which below the first superblock goes on at the top. -/
def maybeFindSb (payload : ℕ → ℕ) (ad fuel : ℕ) : M ℕ := do
  search payload ad (pure 0) (pure 0) fuel 0 (← get).used

/-- The search of `reclaimSuperblock`, with `k` rounds to go. -/
def indexOf (sb : ℕ) : ℕ → ℕ → M ℕ
  | 0, i => pure i
  | k + 1, i => do if (← read i) = sb then pure i else indexOf sb k (i + 1)

/-- `reclaimSuperblock`, up to the `munmap`; the loop of the removal reads one ahead. -/
def reclaimSuperblock (sb : ℕ) : M Unit := do
  let a ← get
  let i ← indexOf sb a.used 0
  vgAssert (i < a.used)
  (List.range' i (a.used - i)).forM fun j => do write j (← read (j + 1))
  modify fun a => { a with used := a.used - 1 }
  write (a.used - 1) 0

inductive Op where
  | insert (newSb : ℕ) (memory : Bool)
  | findSb (payload : ℕ → ℕ) (b fuel : ℕ)
  | maybeFindSb (payload : ℕ → ℕ) (ad fuel : ℕ)
  | reclaim (sb : ℕ)

def exec : Op → M ℕ
  | .insert newSb memory => do insert newSb memory; pure 0
  | .findSb payload b fuel => findSb payload b fuel
  | .maybeFindSb payload ad fuel => maybeFindSb payload ad fuel
  | .reclaim sb => do reclaimSuperblock sb; pure 0

/-- The array as `arena_init` leaves it. -/
def init : Sblocks := ⟨.replicate 50 0, 0⟩

/-- **A superblock is given back** only while the array has room. -/
def Spare (a : Sblocks) (op : Op) : Prop := ∀ sb, op = .reclaim sb → a.used < a.sblocks.length

section Bounds

variable {α : Type} {n u i k sb : ℕ} {P : Sblocks → Prop}

def Sized (n u : ℕ) (a : Sblocks) : Prop := a.sblocks.length = n ∧ a.used = u

/-- No index is out of bounds. -/
abbrev Safe (P : Sblocks → Prop) (m : M α) (Q : α → Sblocks → Prop) : Prop :=
  Spec P m Q (· ≠ .wildAccess)

/-- …and what is in use fits into the array. -/
abbrev Fits (P : Sblocks → Prop) (m : M α) : Prop := Safe P m fun _ a => a.used ≤ a.sblocks.length

abbrev Stays (n u : ℕ) (m : M α) : Prop := Safe (Sized n u) m fun _ => Sized n u

theorem of_sized {m : M α} (h : ∀ n u, Fits (Sized n u) m) : Fits P m :=
  fun a _ => h _ _ a ⟨rfl, rfl⟩

theorem Stays.fits {m : M α} (h : Stays n u m) (hu : u ≤ n) : Fits (Sized n u) m :=
  h.post fun _ _ ha => ha.1 ▸ ha.2 ▸ hu

theorem safe_vgAssert {c : Prop} [Decidable c] {f : Unit → M α} {Q : α → Sblocks → Prop}
    (h : c → Safe P (f ()) Q) : Safe P (liftM (vgAssert c) >>= f) Q := by
  by_cases hc : c
  · rw [vgAssert_of hc]
    exact h hc
  · rw [vgAssert, if_neg hc]
    exact .bind (Q := fun _ _ => False) (.throw (by decide)) fun _ _ hf => hf.elim

theorem stays_read (h : i < n) : Stays n u (read i) :=
  .get_bind fun a ha => by
    rw [getElem?_eq_getElem (ha.1 ▸ h)]
    exact Keeps.pure

theorem stays_write (h : i < n) : Stays n u (write i sb) :=
  .get_bind fun a ha => by
    rw [if_pos (ha.1 ▸ h)]
    exact .modify fun b hb => ⟨length_set.trans hb.1, hb.2⟩

theorem stays_place (h : i < n) : Stays n u (place sb i) := by
  induction i with
  | zero => exact stays_write h
  | succ i ih =>
    exact (stays_read (by omega)).bind fun _ => .ite
      (fun _ => (stays_write h).bind fun _ => ih (by omega)) fun _ => stays_write h

theorem safe_grow (memory : Bool) : Safe P (grow memory) fun _ _ => True :=
  .get_bind fun _ _ => safe_vgAssert fun _ => .ite
    (fun _ => .ite (fun _ => .modify fun _ _ => trivial) fun _ => .throw (by decide))
    fun _ => .pure fun _ _ => trivial

theorem fits_insert (memory : Bool) : Fits P (insert sb memory) := by
  refine (safe_grow memory).bind fun _ => of_sized fun n u => .get_bind fun a ha => ?_
  rw [ha.1, ha.2]
  exact safe_vgAssert fun h => (stays_place h).bind fun _ => .modify fun b hb =>
    Nat.succ_le_of_lt (by rwa [hb.1, hb.2])

theorem stays_search {payload : ℕ → ℕ} {ad fuel min max : ℕ} {outside absent : M ℕ} (hu : u ≤ n)
    (ho : Stays n u outside) (ha : Stays n u absent) :
    Stays n u (search payload ad outside absent fuel min max) := by
  induction fuel generalizing min max with
  | zero => exact .throw (by decide)
  | succ fuel ih =>
    refine .ite (fun _ => .get_bind fun a h => .ite (fun hpos => ?_) fun _ => ho)
      fun _ => ha
    exact (stays_read (hpos.trans_le (h.2 ▸ hu))).bind fun _ =>
      Spec.ite (fun _ => Keeps.pure) fun _ => Spec.ite (fun _ => ih) fun _ => ih

theorem stays_indexOf (h : i + k ≤ n) : Stays n u (indexOf sb k i) := by
  induction k generalizing i with
  | zero => exact Keeps.pure
  | succ k ih =>
    exact (stays_read (by omega)).bind fun _ =>
      Spec.ite (fun _ => Keeps.pure) fun _ => ih (by omega)

/-- Where there is room, the removal loop reads at most the free slot behind the last superblock. -/
theorem fits_reclaimSuperblock (hu : u < n) : Fits (Sized n u) (reclaimSuperblock sb) := by
  refine .get_bind fun a ha => ?_
  rw [ha.2]
  refine (stays_indexOf (by omega)).bind fun i => safe_vgAssert fun hi =>
    (Spec.forM fun j hj => ?_).bind fun _ => Spec.bind (Q := fun _ => Sized n (u - 1)) ?_ fun _ =>
      (stays_write (by omega)).fits (by omega)
  · have hj := mem_range'_1.mp hj
    exact (stays_read (by omega)).bind fun _ => stays_write (by omega)
  · exact .modify fun b hb => ⟨hb.1, congrArg (· - 1) hb.2⟩

theorem fits_exec (op : Op) (hu : u ≤ n) (hop : ∀ sb, op = .reclaim sb → u < n) :
    Fits (Sized n u) (exec op) := by
  cases op with
  | insert newSb memory => exact (fits_insert memory).bind fun _ => Keeps.pure
  | findSb payload b fuel =>
    exact Stays.fits (.get_bind fun _ _ =>
      stays_search hu (.throw (by decide)) (.throw (by decide))) hu
  | maybeFindSb payload ad fuel =>
    exact Stays.fits (Spec.get_bind fun _ _ => stays_search hu Keeps.pure Keeps.pure) hu
  | reclaim sb => exact (fits_reclaimSuperblock (hop sb rfl)).bind fun _ => Keeps.pure

end Bounds

end Sblocks

open Sblocks in
/-- **Every index into the array of superblocks is in bounds** if none is given back while the array
is full. -/
theorem sblocks_in_bounds {ops : List Op} (h : Meets (fun a op => exec op a) Spare init ops) :
    run (fun a op => exec op a) init ops ≠ .error .wildAccess := by
  intro hwild
  have hrun := history_run (E := (· ≠ .wildAccess))
    (I := fun _ _ a => a.used ≤ a.sblocks.length) (fun _ _ a op ha hop => ?_) [] [] zero_le h
  · rcases hrun with ⟨e, he, herr⟩ | ⟨rs, a, hok, -⟩
    · exact he (Except.error.inj (herr.symm.trans hwild))
    · cases hok.symm.trans hwild
  · have hexec := fits_exec op ha hop
    cases hstep : exec op a with
    | error e => exact .inl ⟨e, hexec.error ⟨rfl, rfl⟩ hstep, rfl⟩
    | ok r => exact .inr ⟨r.1, r.2, rfl, hexec.ok ⟨rfl, rfl⟩ hstep⟩

/-- A superblock comes and goes. -/
theorem Sblocks.one_in_bounds :
    run (fun a op => exec op a) init [.insert (2 ^ 20) true, .reclaim (2 ^ 20)]
      ≠ .error .wildAccess :=
  sblocks_in_bounds ⟨nofun, fun _ _ h => ⟨fun _ _ => by cases h; decide, fun _ _ _ => trivial⟩⟩

/-- Fifty superblocks fill the array; to take one of them out a fifty-first is read. -/
theorem Sblocks.full_out_of_bounds :
    run (fun a op => exec op a) init
      ((List.range 50).map (fun i => .insert ((i + 1) * 2 ^ 20) true) ++ [.reclaim (2 ^ 20)])
      = .error .wildAccess := by
  set_option maxRecDepth 10000 in rfl

end Valgrind
