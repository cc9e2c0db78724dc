import Valgrind.Core.SparseWA
import Valgrind.Core.TreeIterator

/-!
# Core/SparseWAIter — iterating over a sparse array, and its whole runs

`nextIterSWA` is a coroutine: it saves where it stands on a stack of eight entries and goes on from
there.  `pending` reads off a stack the bindings still to come; each call takes one off.  The
entries of a stack are of different levels (`Stacked`), so that eight suffice.

`sparseWA_refines` puts lookups, sizes and iterations together, along any run of additions and
deletions.
-/

namespace Valgrind

open List Option Nat Function Finset

namespace SparseWA

/-! ## The code -/

/-- `swa_PUSH`. -/
def swaPush (e : StackElem) (st : List StackElem) : Except Abort (List StackElem) :=
  if st.length ≤ topLevel then .ok (e :: st) else .error .assertion

/-- `VG_(initIterSWA)`. -/
def initIterSWA (swa : SparseWA) : Except Abort SparseWA :=
  match swa.root with
  | some root => do return { swa with iterStack := ← swaPush (.startNewNode 0 root) [] }
  | none => .ok { swa with iterStack := [] }

/-- `(p_key << 8) + (UWord)curr_ix`. -/
def extend (pKey ix : ℕ) : ℕ := (pKey <<< 8 % 2 ^ 64 + ix) % 2 ^ 64

/-- Where `VG_(nextIterSWA)` stands: at a label, or at the head of one of its two loops. -/
inductive Label where
  | dispatch
  | startNewNode (pKey : UWord) {n : ℕ} (currNd : Node n)
  | leafLoop (pKey : UWord) (currIx : ℕ) (level0 : Level0)
  | nonleafLoop (pKey : UWord) (currIx : ℕ) {n : ℕ} (levelN : LevelN (Node n))

/-- Where an entry of the stack goes on. -/
def StackElem.resume : StackElem → Label
  | .startNewNode pKey nd => .startNewNode pKey nd
  | .resumeLeafNode pKey ix level0 => .leafLoop pKey (ix + 1) level0
  | .resumeNonleafNode pKey ix levelN => .nonleafLoop pKey (ix + 1) levelN

/-- `VG_(nextIterSWA)` from a label on, with the number of turns it may take. -/
def nextLoop : ℕ → List StackElem → Label →
    Except Abort (Option (UWord × UWord) × List StackElem)
  | 0, _, _ => .error .diverges
  | _ + 1, [], .dispatch => .ok (none, [])
  | fuel + 1, e :: st, .dispatch =>
    -- `swa_POP`
    if st.length ≤ topLevel then nextLoop fuel st e.resume else .error .assertion
  | fuel + 1, st, @Label.startNewNode pKey 0 level0 => nextLoop fuel st (.leafLoop pKey 0 level0)
  | fuel + 1, st, @Label.startNewNode pKey (_ + 1) levelN =>
    nextLoop fuel st (.nonleafLoop pKey 0 levelN)
  | fuel + 1, st, .leafLoop pKey ix level0 =>
    if h : ix < 256 then
      if bitarrayRead level0.inUse ⟨ix, h⟩ = 1 then do
        let st ← swaPush (.resumeLeafNode pKey ix level0) st
        return (some (extend pKey ix, level0.words ⟨ix, h⟩), st)
      else nextLoop fuel st (.leafLoop pKey (ix + 1) level0)
    else nextLoop fuel st .dispatch
  | fuel + 1, st, .nonleafLoop pKey ix levelN =>
    if h : ix < 256 then
      match levelN.child ⟨ix, h⟩ with
      | some child => do
        let st ← swaPush (.resumeNonleafNode pKey ix levelN) st
        nextLoop fuel st (.startNewNode (extend pKey ix) child)
      | none => nextLoop fuel st (.nonleafLoop pKey (ix + 1) levelN)
    else nextLoop fuel st .dispatch

/-- `VG_(nextIterSWA)`: the next binding.  A call goes up and down each of the eight levels at most
once, with at most 256 turns of a loop in each node. -/
def nextIterSWA (swa : SparseWA) : Except Abort (Option (UWord × UWord) × SparseWA) := do
  let (r, st) ← nextLoop (16 * 260) swa.iterStack .dispatch
  return (r, { swa with iterStack := st })

/-! ## The bindings, in order -/

/-- The bindings of a node below the given upper bytes, from an index on. -/
def bindingsFrom (p : ℕ) : (n : ℕ) → Node n → ℕ → List (UWord × UWord)
  | 0, (level0 : Level0), ix => ((List.finRange 256).drop ix).flatMap fun j =>
    if bit level0.inUse j then [(p * 256 + j, level0.words j)] else []
  | n + 1, (levelN : LevelN (Node n)), ix => ((List.finRange 256).drop ix).flatMap fun j =>
    (levelN.child j).elim [] fun child => bindingsFrom (p * 256 + j) n child 0

/-- The bindings of a node at an index. -/
def bindingsAt (p : ℕ) : (n : ℕ) → Node n → Fin 256 → List (UWord × UWord)
  | 0, (level0 : Level0), j => if bit level0.inUse j then [(p * 256 + j, level0.words j)] else []
  | n + 1, (levelN : LevelN (Node n)), j =>
    (levelN.child j).elim [] fun child => bindingsFrom (p * 256 + j) n child 0

section

variable {n : ℕ}

theorem bindingsFrom_eq (p : ℕ) (nd : Node n) (ix : ℕ) :
    bindingsFrom p n nd ix = ((List.finRange 256).drop ix).flatMap (bindingsAt p n nd) := by
  cases n <;> rfl

theorem bindingsFrom_of_lt (p n : ℕ) (nd : Node n) {ix : ℕ} (h : ix < 256) :
    bindingsFrom p n nd ix = bindingsAt p n nd ⟨ix, h⟩ ++ bindingsFrom p n nd (ix + 1) := by
  rw [bindingsFrom_eq, bindingsFrom_eq, drop_eq_getElem_cons (by simpa using h),
    flatMap_cons, getElem_finRange]
  rfl

theorem bindingsFrom_of_le (p n : ℕ) (nd : Node n) {ix : ℕ} (h : 256 ≤ ix) :
    bindingsFrom p n nd ix = [] := by
  rw [bindingsFrom_eq, drop_eq_nil_of_le (by simpa using h), flatMap_nil]

theorem div_eq_iff (k m p : ℕ) (j : Fin 256) :
    k / 256 ^ m = p * 256 + j ↔ k / 256 ^ (m + 1) = p ∧ byteOf k m = j := by
  have hj := j.isLt
  rw [Fin.ext_iff, byteOf_val, pow_succ, ← Nat.div_div_eq_div_mul]
  omega

section

variable {p : ℕ} {nd : Node n} {k v : UWord}

theorem mem_bindings_of (h : ∀ j, (k, v) ∈ bindingsAt p n nd j ↔
      k / 256 ^ n = p * 256 + j ∧ nodeMap n nd k = some v) :
    (k, v) ∈ bindingsFrom p n nd 0 ↔ k / 256 ^ (n + 1) = p ∧ nodeMap n nd k = some v := by
  rw [bindingsFrom_eq, drop_zero, mem_flatMap]
  simp [h, div_eq_iff]

theorem mem_bindingsAt (j : Fin 256) : (k, v) ∈ bindingsAt p n nd j ↔
    k / 256 ^ n = p * 256 + j ∧ nodeMap n nd k = some v := by
  induction n generalizing p j with
  | zero =>
    rw [bindingsAt, nodeMap, pow_zero, Nat.div_one]
    by_cases hk : k = p * 256 + j
    · obtain ⟨-, rfl⟩ := (div_eq_iff k 0 p j).mp (by simpa using hk)
      split_ifs <;> simp [← hk, eq_comm]
    · split_ifs <;> simp [hk]
  | succ n ih =>
    rw [bindingsAt, nodeMap]
    by_cases hk : k / 256 ^ (n + 1) = p * 256 + j
    · obtain ⟨-, rfl⟩ := (div_eq_iff k (n + 1) p j).mp hk
      cases nd.child (byteOf k (n + 1)) with
      | none => simp
      | some child => rw [elim_some, bind_some, mem_bindings_of ih]
    · cases nd.child j with
      | none => simp [hk]
      | some child => simp [mem_bindings_of ih, hk]

/-- **The bindings of a node are what it holds**, below its upper bytes. -/
theorem mem_bindings :
    (k, v) ∈ bindingsFrom p n nd 0 ↔ k / 256 ^ (n + 1) = p ∧ nodeMap n nd k = some v :=
  mem_bindings_of mem_bindingsAt

theorem pairwise_bindings_of (h : ∀ j, (bindingsAt p n nd j).Pairwise fun b b' => b.1 < b'.1) :
    (bindingsFrom p n nd 0).Pairwise fun b b' => b.1 < b'.1 := by
  rw [bindingsFrom_eq, drop_zero, pairwise_flatMap]
  refine ⟨fun j _ => h j, (pairwise_lt_finRange 256).imp fun {i j} hij b hb b' hb' => ?_⟩
  refine lt_of_div_lt_div (c := 256 ^ n) ?_
  rw [((mem_bindingsAt i).mp hb).1, ((mem_bindingsAt j).mp hb').1]
  exact Nat.add_lt_add_left hij _

/-- **…in the order of their keys.** -/
theorem pairwise_bindings : (bindingsFrom p n nd 0).Pairwise fun b b' => b.1 < b'.1 := by
  induction n generalizing p with
  | zero =>
    refine pairwise_bindings_of fun j => ?_
    rw [bindingsAt]
    split_ifs
    · exact pairwise_singleton _ _
    · exact .nil
  | succ n ih =>
    refine pairwise_bindings_of fun j => ?_
    rw [bindingsAt]
    cases nd.child j with
    | none => exact .nil
    | some child => exact ih

end

end

/-! ## Sizes -/

theorem length_bindings_zero (p : ℕ) (level0 : Level0) :
    (bindingsFrom p 0 level0 0).length = used (bit level0.inUse) := by
  have hone : ∀ j, (bindingsAt p 0 level0 j).length = if bit level0.inUse j = true then 1 else 0 := by
    intro j
    rw [bindingsAt]
    split_ifs <;> rfl
  rw [bindingsFrom_eq, drop_zero, length_flatMap, funext hone, ← Fin.sum_univ_def, used,
    card_filter]

/-- **The size is the number of bindings**, as far as it fits a word. -/
theorem sizeWrk_eq (p : ℕ) {n : ℕ} {nd : Node n} (h : Counted n nd) :
    sizeWrk n nd = (bindingsFrom p n nd 0).length % 2 ^ 64 := by
  induction n generalizing p with
  | zero =>
    have hle := used_le (bit nd.inUse)
    have hcount : nd.nInUse = used (bit nd.inUse) := h
    rw [sizeWrk, length_bindings_zero, hcount, toULong_of_nonneg (by omega) (by omega),
      mod_eq_of_lt (by omega), Int.toNat_natCast]
  | succ n ih =>
    have hfold : ∀ (l : List (Fin 256)) (sum : ℕ), l.foldl (fun sum i => match nd.child i with
          | some child => (sum + sizeWrk n child) % 2 ^ 64
          | none => sum) (sum % 2 ^ 64)
        = (sum + (l.flatMap (bindingsAt p (n + 1) nd)).length) % 2 ^ 64 := by
      intro l
      induction l with
      | nil => exact fun sum => rfl
      | cons i l ihl =>
        intro sum
        rw [foldl_cons, flatMap_cons, length_append, ← add_assoc, ← ihl, bindingsAt]
        cases hchild : nd.child i with
        | none => rfl
        | some child =>
          dsimp only
          rw [ih (p * 256 + i) (h.2.2 i child hchild).1, ← add_mod, elim_some]
    have hsum := hfold (List.finRange 256) 0
    rw [zero_mod, zero_add] at hsum
    rw [bindingsFrom_eq, drop_zero, ← hsum]
    rfl

/-! ## Stacks -/

/-- The level of the node of an entry. -/
def StackElem.level : StackElem → ℕ
  | @StackElem.startNewNode _ n _ => n
  | .resumeLeafNode _ _ _ => 0
  | @StackElem.resumeNonleafNode _ _ n _ => n + 1

/-- The bindings an entry still has to deliver. -/
def StackElem.pending : StackElem → List (UWord × UWord)
  | @StackElem.startNewNode p n nd => bindingsFrom p n nd 0
  | .resumeLeafNode p ix level0 => bindingsFrom p 0 level0 (ix + 1)
  | @StackElem.resumeNonleafNode p ix n levelN => bindingsFrom p (n + 1) levelN (ix + 1)

/-- Keys that start with the given bytes above level `n` are words. -/
def Fits (n p : ℕ) : Prop := (p + 1) * 256 ^ (n + 1) ≤ 2 ^ 64

/-- The key so far fits, the index is one, and the nodes to come are live. -/
def StackElem.Ok : StackElem → Prop
  | @StackElem.startNewNode p n nd => Fits n p ∧ Live n nd
  | .resumeLeafNode p ix _ => Fits 0 p ∧ ix < 256
  | @StackElem.resumeNonleafNode p ix n levelN =>
    Fits (n + 1) p ∧ ix < 256 ∧ ∀ ix child, levelN.child ix = some child → Live n child

/-- The entries are of the levels from `n` up to the root's. -/
def Stacked : List StackElem → ℕ → Prop
  | [], n => n = topLevel + 1
  | e :: st, n => e.level = n ∧ e.Ok ∧ Stacked st (n + 1)

/-- The bindings still to come. -/
def pending (st : List StackElem) : List (UWord × UWord) := st.flatMap StackElem.pending

theorem Stacked.length_add {st : List StackElem} {n : ℕ} (h : Stacked st n) :
    st.length + n = topLevel + 1 := by
  induction st generalizing n with
  | nil => exact (zero_add n).trans h
  | cons e st ih =>
    have := ih h.2.2
    rw [length_cons]
    omega

/-- A node can be pushed on the nodes above it. -/
theorem Stacked.push {st : List StackElem} {n : ℕ} (h : Stacked st (n + 1)) (e : StackElem) :
    swaPush e st = .ok (e :: st) := by
  have := h.length_add
  exact if_pos (by omega)

theorem Fits.extend {n p : ℕ} (h : Fits n p) {ix : ℕ} (hix : ix < 256) :
    extend p ix = p * 256 + ix := by
  have hone : (p + 1) * 256 ≤ (p + 1) * 256 ^ (n + 1) :=
    mul_le_mul_left _ (le_self_pow n.succ_ne_zero 256)
  have hlt : (p + 1) * 256 ≤ 2 ^ 64 := hone.trans h
  rw [SparseWA.extend, shiftLeft_eq]
  omega

theorem Fits.child {n p : ℕ} (h : Fits (n + 1) p) {ix : ℕ} (hix : ix < 256) :
    Fits n (p * 256 + ix) := by
  refine le_trans ?_ h
  rw [pow_succ _ (n + 1), mul_comm (256 ^ (n + 1)), ← mul_assoc]
  exact mul_le_mul_right _ (by omega)

/-! ## A call of `nextIterSWA` -/

section Next

variable {st : List StackElem} {p n ix : ℕ}

/-- A call that delivered a binding: the rest is pending. -/
def Delivers (r : Except Abort (Option (UWord × UWord) × List StackElem))
    (bs : List (UWord × UWord)) : Prop :=
  ∃ b st n, r = .ok (some b, st) ∧ Stacked st n ∧ bs = b :: pending st

/-- The loop over a leaf: it ends, or delivers the next word in use. -/
theorem leafLoop_spec (fuel : ℕ) (level0 : Level0) (hp : Fits 0 p) (hst : Stacked st 1)
    (hix : ix ≤ 256) :
    (bindingsFrom p 0 level0 ix = []
      ∧ nextLoop (fuel + (257 - ix)) st (.leafLoop p ix level0) = nextLoop fuel st .dispatch)
    ∨ Delivers (nextLoop (fuel + (257 - ix)) st (.leafLoop p ix level0))
      (bindingsFrom p 0 level0 ix ++ pending st) := by
  induction hd : 256 - ix generalizing ix with
  | zero =>
    obtain rfl : ix = 256 := by omega
    exact .inl ⟨bindingsFrom_of_le p 0 level0 le_rfl, by rw [nextLoop, dif_neg (lt_irrefl _)]⟩
  | succ d ih =>
    have hlt : ix < 256 := by omega
    have hfuel : fuel + (257 - ix) = fuel + (257 - (ix + 1)) + 1 := by omega
    rw [bindingsFrom_of_lt p 0 level0 hlt, hfuel, nextLoop, dif_pos hlt, bitarrayRead_eq, bindingsAt]
    cases hbit : bit level0.inUse ⟨ix, hlt⟩ with
    | false =>
      rw [if_neg Bool.false_ne_true, if_neg (show ¬ false.toNat = 1 by decide), nil_append]
      exact ih (by omega) (by omega)
    | true =>
      rw [if_pos rfl, if_pos Bool.toNat_true, hst.push, ok_bind, hp.extend hlt]
      exact .inr ⟨_, _, 0, rfl, ⟨rfl, ⟨hp, hlt⟩, hst⟩, rfl⟩

/-- The loop over the children of a node: it ends, or goes down to the next child, where `hdown`
takes over. -/
theorem nonleafLoop_spec (fuel : ℕ) (levelN : LevelN (Node n)) (hp : Fits (n + 1) p)
    (hst : Stacked st (n + 2)) (hbelow : ∀ ix child, levelN.child ix = some child → Live n child)
    (hdown : ∀ {p st fuel'} {nd : Node n}, Live n nd → Fits n p → Stacked st (n + 1) →
      fuel ≤ fuel' →
      Delivers (nextLoop fuel' st (.startNewNode p nd)) (bindingsFrom p n nd 0 ++ pending st))
    (hix : ix ≤ 256) :
    ((∀ j : Fin 256, ix ≤ j → levelN.child j = none) ∧ bindingsFrom p (n + 1) levelN ix = []
      ∧ nextLoop (fuel + (257 - ix)) st (.nonleafLoop p ix levelN) = nextLoop fuel st .dispatch)
    ∨ Delivers (nextLoop (fuel + (257 - ix)) st (.nonleafLoop p ix levelN))
      (bindingsFrom p (n + 1) levelN ix ++ pending st) := by
  induction hd : 256 - ix generalizing ix with
  | zero =>
    obtain rfl : ix = 256 := by omega
    exact .inl ⟨fun j hj => absurd j.isLt (by omega), bindingsFrom_of_le p (n + 1) levelN le_rfl,
      by rw [nextLoop, dif_neg (lt_irrefl _)]⟩
  | succ d ih =>
    have hlt : ix < 256 := by omega
    have hfuel : fuel + (257 - ix) = fuel + (257 - (ix + 1)) + 1 := by omega
    rw [bindingsFrom_of_lt p (n + 1) levelN hlt, hfuel, nextLoop, dif_pos hlt, bindingsAt]
    cases hchild : levelN.child ⟨ix, hlt⟩ with
    | some child =>
      dsimp only
      rw [hst.push, ok_bind, hp.extend hlt, append_assoc]
      exact .inr (hdown (hbelow _ child hchild) (hp.child hlt) ⟨rfl, ⟨hp, hlt, hbelow⟩, hst⟩
        (le_add_right _ _))
    | none =>
      refine (ih (by omega) (by omega)).imp_left ?_
      rintro ⟨hnone, hrest⟩
      refine ⟨fun j hj => ?_, hrest⟩
      rcases hj.eq_or_lt with rfl | hj
      · exact hchild
      · exact hnone j hj

theorem Live.used_pos {nd : Node n} (h : Live n nd) : 0 < used (slots n nd) := by
  have hcount := h.1.nInUse_eq
  have hpos := h.2
  omega

/-- **Starting a node delivers its first binding.** -/
theorem startNewNode_spec {nd : Node n} (h : Live n nd) (hp : Fits n p)
    (hst : Stacked st (n + 1)) {fuel : ℕ} (hfuel : 260 * (n + 1) ≤ fuel) :
    Delivers (nextLoop fuel st (.startNewNode p nd)) (bindingsFrom p n nd 0 ++ pending st) := by
  induction n generalizing p st fuel with
  | zero =>
    obtain ⟨fuel, rfl⟩ : ∃ f, fuel = f + (257 - 0) + 1 := ⟨fuel - 258, by omega⟩
    rw [nextLoop]
    refine (leafLoop_spec fuel nd hp hst zero_le).resolve_left fun ⟨hnone, _⟩ => ?_
    have hlen := length_bindings_zero p nd
    rw [hnone] at hlen
    exact h.used_pos.ne hlen
  | succ n ih =>
    obtain ⟨fuel, rfl⟩ : ∃ f, fuel = f + (257 - 0) + 1 := ⟨fuel - 258, by omega⟩
    rw [nextLoop]
    refine (nonleafLoop_spec fuel nd hp hst h.1.2.2 (fun h hp hst hle => ih h hp hst (by omega))
      zero_le).resolve_left fun ⟨hnone, _⟩ => ?_
    obtain ⟨ix, hix⟩ := exists_of_used_pos h.used_pos
    exact isSome_iff_ne_none.mp hix (hnone ix zero_le)

/-- **A call delivers the next binding, or says that there is none.** -/
theorem dispatch_spec (hst : Stacked st n) (fuel : ℕ)
    (hfuel : 260 * (st.length + 8) ≤ fuel) :
    ∃ st' n', nextLoop fuel st .dispatch = .ok ((pending st).head?, st') ∧ Stacked st' n'
      ∧ pending st' = (pending st).tail := by
  have hdeliver : ∀ {r bs}, Delivers r bs →
      ∃ st' n', r = .ok (bs.head?, st') ∧ Stacked st' n' ∧ pending st' = bs.tail := by
    rintro _ _ ⟨b, st', n', rfl, hst', rfl⟩
    exact ⟨st', n', rfl, hst', rfl⟩
  induction st generalizing n fuel with
  | nil =>
    obtain ⟨fuel, rfl⟩ : ∃ f, fuel = f + 1 := ⟨fuel - 1, by omega⟩
    exact ⟨[], n, by rw [nextLoop]; rfl, hst, rfl⟩
  | cons e st ih =>
    obtain ⟨fuel, rfl⟩ : ∃ f, fuel = f + 258 + 1 := ⟨fuel - 259, by omega⟩
    obtain ⟨hlevel, hok, hst⟩ := hst
    have hlen := hst.length_add
    rw [length_cons] at hfuel
    rw [nextLoop, if_pos (by omega)]
    have htop : topLevel = 7 := rfl
    cases e with
    | @startNewNode p m nd =>
      obtain rfl : m = n := hlevel
      exact hdeliver (startNewNode_spec hok.2 hok.1 hst (by omega))
    | resumeLeafNode p ix level0 =>
      obtain rfl : 0 = n := hlevel
      obtain ⟨hp, hix⟩ := hok
      have hpending : pending (.resumeLeafNode p ix level0 :: st)
          = bindingsFrom p 0 level0 (ix + 1) ++ pending st := rfl
      obtain ⟨f, hf⟩ : ∃ f, fuel + 258 = f + (257 - (ix + 1)) := ⟨fuel + 2 + ix, by omega⟩
      rw [hpending, StackElem.resume, hf]
      obtain ⟨hnone, hrun⟩ | hrun := leafLoop_spec f level0 hp hst (succ_le_of_lt hix)
      · rw [hrun, hnone, nil_append]
        exact ih hst _ (by omega)
      · exact hdeliver hrun
    | @resumeNonleafNode p ix m levelN =>
      obtain rfl : m + 1 = n := hlevel
      obtain ⟨hp, hix, hbelow⟩ := hok
      have hpending : pending (.resumeNonleafNode p ix levelN :: st)
          = bindingsFrom p (m + 1) levelN (ix + 1) ++ pending st := rfl
      obtain ⟨f, hf⟩ : ∃ f, fuel + 258 = f + (257 - (ix + 1)) := ⟨fuel + 2 + ix, by omega⟩
      rw [hpending, StackElem.resume, hf]
      obtain ⟨-, hnone, hrun⟩ | hrun := nonleafLoop_spec f levelN hp hst hbelow
        (fun h hp hst hle => startNewNode_spec h hp hst (by omega)) (succ_le_of_lt hix)
      · rw [hrun, hnone, nil_append]
        exact ih hst _ (by omega)
      · exact hdeliver hrun

end Next

/-! ## Whole iterations -/

/-- The bindings of an array, in the order of their keys. -/
def bindings (swa : SparseWA) : List (UWord × UWord) :=
  swa.root.elim [] fun root => bindingsFrom 0 topLevel root 0

/-- A complete iteration: `VG_(initIterSWA)`, then `VG_(nextIterSWA)` until it returns False. -/
def iterate (swa : SparseWA) : Except Abort (List (UWord × UWord) × SparseWA) := do
  let swa ← swa.initIterSWA
  drain nextIterSWA (swa.bindings.length + 1) swa

/-- The nodes of an array are live. -/
def AllLive (swa : SparseWA) : Prop := ∀ root ∈ swa.root, Live topLevel root

section Iterate

variable {swa : SparseWA}

theorem nextIterSWA_spec {n : ℕ} (hst : Stacked swa.iterStack n) :
    ∃ swa' n', swa.nextIterSWA = .ok ((pending swa.iterStack).head?, swa')
      ∧ Stacked swa'.iterStack n' ∧ pending swa'.iterStack = (pending swa.iterStack).tail := by
  have hlen := hst.length_add
  have htop : topLevel = 7 := rfl
  obtain ⟨st', n', hrun, hst', hpending⟩ := dispatch_spec hst (16 * 260) (by omega)
  exact ⟨{ swa with iterStack := st' }, n', by rw [nextIterSWA, hrun, ok_bind]; rfl, hst', hpending⟩

theorem drain_spec (swa : SparseWA) {n : ℕ} (hst : Stacked swa.iterStack n) (fuel : ℕ)
    (hfuel : (pending swa.iterStack).length < fuel) :
    ∃ swa', drain nextIterSWA fuel swa = .ok (pending swa.iterStack, swa') := by
  induction fuel generalizing swa n with
  | zero => exact absurd hfuel (not_lt_zero _)
  | succ fuel ih =>
    obtain ⟨swa', n', hnext, hst', hpending⟩ := nextIterSWA_spec hst
    cases hp : pending swa.iterStack with
    | nil => exact ⟨swa', by simp [drain, hnext, hp]⟩
    | cons b bs =>
      rw [hp, tail_cons] at hpending
      rw [hp, length_cons] at hfuel
      obtain ⟨swa'', hdrain⟩ := ih swa' hst' (by rw [hpending]; omega)
      exact ⟨swa'', by simp [drain, hnext, hp, hdrain, hpending]⟩

/-- **An iteration delivers the bindings**, and needs no more than the eight entries it has. -/
theorem iterate_eq (h : AllLive swa) : ∃ swa', swa.iterate = .ok (swa.bindings, swa') := by
  obtain ⟨root, st⟩ := swa
  cases root with
  | none => exact drain_spec ⟨none, []⟩ (n := topLevel + 1) rfl _ (lt_succ_self 0)
  | some root =>
    have hfits : Fits topLevel 0 := by norm_num [Fits, topLevel]
    have hst : Stacked [.startNewNode 0 root] topLevel := ⟨rfl, ⟨hfits, h root rfl⟩, rfl⟩
    have hpending : pending [.startNewNode 0 root] = bindingsFrom 0 topLevel root 0 :=
      append_nil _
    have hdrain := drain_spec ⟨some root, [.startNewNode 0 root]⟩ hst
      ((bindingsFrom 0 topLevel root 0).length + 1)
      (by rw [hpending]; exact lt_succ_self _)
    rw [hpending] at hdrain
    exact hdrain

theorem mem_bindings_iff (k v : UWord) :
    (k, v) ∈ swa.bindings ↔ k < 2 ^ 64 ∧ swa.root.bind (nodeMap topLevel · k) = some v := by
  have hdiv : k / 256 ^ (topLevel + 1) = 0 ↔ k < 2 ^ 64 := by
    rw [show 256 ^ (topLevel + 1) = 2 ^ 64 by norm_num [topLevel]]
    exact div_eq_zero_iff_lt (by norm_num)
  obtain ⟨_ | root, st⟩ := swa
  · simp [bindings]
  · rw [bindings, elim_some, mem_bindings, hdiv, bind_some]

theorem pairwise_bindings_lt : swa.bindings.Pairwise fun b b' => b.1 < b'.1 := by
  obtain ⟨_ | root, st⟩ := swa
  · exact .nil
  · exact pairwise_bindings

end Iterate

/-! ## Memory -/

/-- `sizeof(Level0)`. -/
def sizeofLevel0 : ℕ := 2096

/-- The number of leaves below a node. -/
def leaves : (n : ℕ) → Node n → ℕ
  | n + 1, (levelN : LevelN (Node n)) => ∑ ix, (levelN.child ix).elim 0 (leaves n)
  | 0, _ => 1

/-- The leaves lie side by side in the address space. -/
def InMemory (swa : SparseWA) : Prop :=
  ∀ root ∈ swa.root, leaves topLevel root * sizeofLevel0 ≤ 2 ^ 64

theorem length_bindings_le (p : ℕ) {n : ℕ} (nd : Node n) :
    (bindingsFrom p n nd 0).length ≤ leaves n nd * 256 := by
  induction n generalizing p with
  | zero =>
    rw [length_bindings_zero, leaves, one_mul]
    exact used_le _
  | succ n ih =>
    rw [bindingsFrom_eq, drop_zero, length_flatMap, ← Fin.sum_univ_def, leaves,
      sum_mul]
    refine Finset.sum_le_sum fun ix _ => ?_
    rw [bindingsAt]
    cases nd.child ix with
    | none => exact zero_le
    | some child => exact ih _ child

/-- **The size is the number of bindings**: leaves take up more room than a word counts. -/
theorem sizeSWA_eq {swa : SparseWA} (h : AllLive swa) (hmem : InMemory swa) :
    swa.sizeSWA = swa.bindings.length := by
  obtain ⟨_ | root, st⟩ := swa
  · rfl
  · have hle := length_bindings_le 0 root
    have hfit := hmem root rfl
    rw [sizeofLevel0] at hfit
    have hsize : sizeSWA ⟨some root, st⟩ = sizeWrk topLevel root := rfl
    rw [hsize, bindings, elim_some, sizeWrk_eq 0 (h root rfl).1]
    exact mod_eq_of_lt (by omega)

/-! ## Runs -/

/-- The calls that change an array. -/
inductive Op where
  | add (key val : UWord)
  | del (key : UWord)

/-- The key of a call. -/
def Op.key : Op → UWord
  | .add key _ => key
  | .del key => key

/-- What the calls return. -/
inductive Result where
  | added (alreadyPresent : Bool)
  | deleted (oldV : Option UWord)

/-- One call and what it returns. -/
def step (swa : SparseWA) : Op → Except Abort (Result × SparseWA)
  | .add key val => do
    let (alreadyPresent, swa) ← swa.addToSWA key val
    return (.added alreadyPresent, swa)
  | .del key => do
    let (oldV, swa) ← swa.delFromSWA key
    return (.deleted oldV, swa)

/-- What a call does to a partial map, and what it is to return. -/
def act (m : UWord → Option UWord) : Op → Result × (UWord → Option UWord)
  | .add key val => (.added (m key).isSome, Function.update m key (some val))
  | .del key => (.deleted (m key), Function.update m key none)

/-- The trie holds the partial map. -/
structure Holds (swa : SparseWA) (m : UWord → Option UWord) : Prop where
  live : AllLive swa
  map : ∀ k < 2 ^ 64, swa.root.bind (nodeMap topLevel · k) = m k

section Runs

variable {swa : SparseWA} {m : UWord → Option UWord}

theorem holds_newSWA : Holds newSWA fun _ => none :=
  ⟨fun _ h => (nomatch h), fun _ _ => rfl⟩

theorem addToSWA_spec (h : Holds swa m) (key : ℕ) (hkey : key < 2 ^ 64) (val : UWord) :
    ∃ swa', swa.addToSWA key val = .ok ((m key).isSome, swa')
      ∧ Holds swa' (Function.update m key (some val)) := by
  have hcounted : Counted topLevel (swa.root.getD (newNode topLevel)) := by
    cases hroot : swa.root with
    | none => exact counted_newNode _
    | some root => exact (h.live root hroot).1
  have hmap : ∀ k, nodeMap topLevel (swa.root.getD (newNode topLevel)) k
      = swa.root.bind (nodeMap topLevel · k) := by
    cases swa.root with
    | none => exact nodeMap_newNode _
    | some root => exact fun k => rfl
  obtain ⟨root', hadd, hlive, hmap'⟩ := addFrom_spec key val topLevel hcounted
  rw [hmap, h.map key hkey] at hadd
  refine ⟨{ swa with root := some root' }, by rw [addToSWA, hadd, ok_bind]; rfl,
    fun root hroot => some.inj hroot ▸ hlive, fun k hk => ?_⟩
  rw [bind_some, hmap', update_apply]
  simp only [sameBelow_top hk hkey, hmap, h.map k hk]

theorem delFromSWA_spec (h : Holds swa m) (key : ℕ) (hkey : key < 2 ^ 64) :
    ∃ swa', swa.delFromSWA key = .ok (m key, swa') ∧ Holds swa' (Function.update m key none) := by
  have hunbound : m key = none → Holds swa (update m key none) := fun hnone =>
    ⟨h.live, by rw [← hnone, update_eq_self]; exact h.map⟩
  have hkeymap := h.map key hkey
  rw [delFromSWA]
  cases hroot : swa.root with
  | none =>
    rw [hroot, bind_none] at hkeymap
    exact ⟨swa, by rw [← hkeymap]; rfl, hunbound hkeymap.symm⟩
  | some root =>
    rw [hroot, bind_some] at hkeymap
    have hdel := delNode_spec key topLevel (h.live root hroot)
    have htop : ∀ o : Option (Node topLevel), replace .root o = .ok o := by
      rintro (_ | _) <;> rfl
    rw [delFrom_eq key topLevel (h.live root hroot) .root trivial]
    cases hnode : delNode key topLevel root with
    | none =>
      rw [hnode] at hdel
      have hnone : m key = none := hkeymap.symm.trans hdel
      exact ⟨swa, by rw [hnone]; rfl, hunbound hnone⟩
    | some r =>
      obtain ⟨oldV, o⟩ := r
      rw [hnode] at hdel
      obtain ⟨hold, hlive, hmap⟩ := hdel
      have hsome : m key = some oldV := hkeymap.symm.trans hold
      refine ⟨{ swa with root := o }, ?_, hlive, fun k hk => ?_⟩
      · dsimp only
        rw [htop, ok_bind, hsome]
        rfl
      · have hk' := h.map k hk
        rw [hroot, bind_some] at hk'
        rw [hmap, update_apply]
        simp only [sameBelow_top hk hkey, hk']

/-- **Every call refines what it does to the partial map.** -/
theorem refines_step : Refinement.Refines step act (fun _ _ op => op.key < 2 ^ 64) Holds := by
  intro swa m op h hkey
  cases op with
  | add key val =>
    obtain ⟨swa', hadd, h'⟩ := addToSWA_spec h key hkey val
    exact ⟨swa', by rw [step, hadd]; rfl, h'⟩
  | del key =>
    obtain ⟨swa', hdel, h'⟩ := delFromSWA_spec h key hkey
    exact ⟨swa', by rw [step, hdel]; rfl, h'⟩

/-- All that can be observed of an array agrees with the partial map `m`, and its nodes are live. -/
structure Agrees (swa : SparseWA) (m : UWord → Option UWord) : Prop where
  live : AllLive swa
  lookup : ∀ k < 2 ^ 64, swa.lookupSWA k = .ok (m k)
  size : InMemory swa → swa.sizeSWA = {k | k < 2 ^ 64 ∧ (m k).isSome}.ncard
  iter : ∃ bs swa', swa.iterate = .ok (bs, swa') ∧ (bs.Pairwise fun b b' => b.1 < b'.1)
    ∧ ∀ k v, (k, v) ∈ bs ↔ k < 2 ^ 64 ∧ m k = some v

theorem Holds.mem_bindings (h : Holds swa m) (k v : UWord) :
    (k, v) ∈ swa.bindings ↔ k < 2 ^ 64 ∧ m k = some v := by
  rw [mem_bindings_iff]
  exact and_congr_right fun hk => by rw [h.map k hk]

theorem Holds.agrees (h : Holds swa m) : Agrees swa m := by
  refine ⟨h.live, fun k hk => ?_, fun hmem => ?_, ?_⟩
  · rw [lookupSWA, lookupFrom_eq k topLevel h.live, h.map k hk]
  · have hkeys : {k | k < 2 ^ 64 ∧ (m k).isSome}
        = ((swa.bindings.map Prod.fst).toFinset : Set ℕ) := by
      ext k
      simp [isSome_iff_exists, h.mem_bindings]
    have hnodup : (swa.bindings.map Prod.fst).Nodup :=
      pairwise_map.mpr (pairwise_bindings_lt.imp fun hlt => hlt.ne)
    rw [sizeSWA_eq h.live hmem, hkeys, Set.ncard_coe_finset, toFinset_card_of_nodup hnodup,
      length_map]
  · obtain ⟨swa', hiter⟩ := iterate_eq h.live
    exact ⟨swa.bindings, swa', hiter, pairwise_bindings_lt, h.mem_bindings⟩

/-- **A sparse array is a partial map on words.**  Along any run of additions and deletions every
call returns what it is to return and no assertion fails; afterwards lookups, the size and
iterations are those of the map, and every node counts its children or words in use, which are not
none. -/
theorem sparseWA_refines (ops : List Op) (hkeys : ∀ op ∈ ops, op.key < 2 ^ 64) :
    ∃ swa, Refinement.run step newSWA ops
        = .ok ((Refinement.absRun act (fun _ => none) ops).1, swa)
      ∧ Agrees swa (Refinement.absRun act (fun _ => none) ops).2 := by
  obtain ⟨swa, hrun, h⟩ := refines_step.run holds_newSWA (Refinement.admits_of_forall hkeys)
  exact ⟨swa, hrun, h.agrees⟩

/-- A key with all bytes set is bound, bound again and deleted. -/
theorem sparseWA_refines_top :
    ∃ swa, Refinement.run step newSWA [.add (2 ^ 64 - 1) 5, .add (2 ^ 64 - 1) 6, .del (2 ^ 64 - 1)]
        = .ok ([.added false, .added true, .deleted (some 6)], swa) := by
  obtain ⟨swa, hrun, -⟩ := sparseWA_refines
    [.add (2 ^ 64 - 1) 5, .add (2 ^ 64 - 1) 6, .del (2 ^ 64 - 1)] (by simp [Op.key])
  refine ⟨swa, hrun.trans ?_⟩
  simp [Refinement.absRun, act]

end Runs

end SparseWA

end Valgrind
