import Valgrind.Foundations.Forest
import Valgrind.Memcheck.LeakMarking

/-!
# Memcheck/LeakCliques — lost blocks are gathered under leaders

After marking, every block that is still `Unreached` is traced in turn: what it leads to and is
`Unreached` becomes an `IndirectLeak`, linked to the block it was found in, and its size, with what
it led so far, is added to the leader's.  The links are a **forest** (`Foundations/Forest`): a step
of the trace links one root, an earlier leader or a block on its own, under a block of the clique.

`cliques_account`: the lost blocks are the leaders and what is linked under them, each indirect leak
is linked to exactly one leader, from which it can be reached, and each byte is counted once.
-/

namespace Valgrind.Memcheck

open List hiding range mem_range mem_filter
open Finset (range sum_congr mem_range mem_filter mem_erase)
open Function (update_apply)

namespace LeakSearch

variable (s : LeakSearch)

/-- The clique of one block. -/
def gatherClique (fuel i : ℕ) (st : LeakState) : Except Abort LeakState := do
  vgAssert (st.markstack = [])
  if (st.extras i).state = .unreached then
    let st ← s.lcPush i st
    let st ← s.lcProcessMarkstack (some i) fuel st
    vgAssert (st.markstack = [])
    vgAssert ((st.extras i).state = .unreached)
    return st
  else return st

/-- The clique phase of `MC_(detect_memory_leaks)`. -/
def gatherCliques (fuel : ℕ) (st : LeakState) : Except Abort LeakState :=
  (List.range s.chunks.length).foldlM (fun st i => s.gatherClique fuel i st) st

end LeakSearch

/-! ## What marking leaves -/

/-- What a computation keeps, a list of computations keeps. -/
theorem foldlM_keeps {σ β : Type} {f : σ → β → Except Abort σ} {P : σ → Prop}
    (hf : ∀ a b c, f a b = .ok c → P a → P c) {l : List β} {a c : σ}
    (h : l.foldlM f a = .ok c) (ha : P a) : P c := by
  induction l generalizing a with
  | nil => exact Except.ok.inj h ▸ ha
  | cons b l ih =>
    rw [foldlM_cons] at h
    obtain ⟨a', hstep, hrest⟩ := bind_eq_ok.mp h
    exact ih hrest (hf a b a' hstep ha)

/-- What visiting a word keeps, a scan keeps. -/
theorem Client.lcScanMemory_keeps {c : Client} {σ : Type} {visit : ℕ → σ → Except Abort σ}
    {P : σ → Prop} (hv : ∀ v a b, visit v a = .ok b → P a → P b) {start len : ℕ} {a b : σ}
    (h : c.lcScanMemory visit start len a = .ok b) (ha : P a) : P b := by
  rw [lcScanMemory] at h
  generalize roundDn ((start + len) % 2 ^ 64) 8 = stop at h
  generalize stop / 8 = fuel at h
  generalize c.scanStart start = ptr at h
  induction fuel generalizing ptr a with
  | zero =>
    rw [scanLoop] at h
    split_ifs at h
    exact Except.ok.inj h ▸ ha
  | succ fuel ih =>
    rw [scanLoop] at h
    split_ifs at h
    · split at h
      · exact ih ha _ h
      · obtain ⟨a', hvisit, hrest⟩ := bind_eq_ok.mp h
        exact ih (hv _ a a' hvisit ha) _ hrest
    · exact Except.ok.inj h ▸ ha

namespace LeakState

/-- Pending blocks are on the stack, and no clique has been gathered. -/
def Unlinked (st : LeakState) : Prop := ∀ i, ((st.extras i).pending → i ∈ st.markstack)
  ∧ (st.extras i).iorC = 0 ∧ (st.extras i).state ≠ .indirectLeak

theorem unlinked_init : Unlinked init := fun _ => ⟨nofun, rfl, nofun⟩

/-- A block's entry is changed in its state and its heuristic only. -/
theorem Unlinked.modify {st : LeakState} (h : st.Unlinked) (i : ℕ) {f : LCExtra → LCExtra}
    (hp : (f (st.extras i)).pending = (st.extras i).pending)
    (hc : (f (st.extras i)).iorC = (st.extras i).iorC)
    (hs : (f (st.extras i)).state ≠ .indirectLeak) : (st.modify i f).Unlinked := by
  intro j
  simp only [LeakState.modify, update_apply]
  split_ifs with hj
  · subst hj
    exact ⟨fun hpj => (h j).1 (hp ▸ hpj), hc.trans (h j).2.1, hs⟩
  · exact h j

end LeakState

namespace LeakSearch

variable {s : LeakSearch} {st st' : LeakState}

theorem lcPush_unlinked {i : ℕ} (h : s.lcPush i st = .ok st') (hst : st.Unlinked) :
    st'.Unlinked := by
  rw [lcPush] at h
  split_ifs at h
  · exact Except.ok.inj h ▸ hst
  · cases h
    intro j
    simp only [LeakState.modify, update_apply]
    split_ifs with hj
    · subst hj
      exact ⟨fun _ => mem_cons_self, (hst j).2⟩
    · exact ⟨fun hp => mem_cons_of_mem _ ((hst j).1 hp), (hst j).2⟩

/-- A pointer leaves an entry as it is, but for its heuristic. -/
theorem chViaPtr_fst (ptr chNo : ℕ) (ch : Chunk) (ex : LCExtra) :
    ∃ h, (s.chViaPtr ptr chNo ch ex).1 = { ex with heuristic := h } := by
  rw [chViaPtr]
  split_ifs
  · exact ⟨ex.heuristic, rfl⟩
  · exact ⟨_, rfl⟩
  · exact ⟨ex.heuristic, rfl⟩

theorem lcPushWithoutClique_unlinked {v : ℕ} {d : Bool}
    (h : s.lcPushWithoutClique v d st = .ok st') (hst : st.Unlinked) : st'.Unlinked := by
  rw [lcPushWithoutClique] at h
  obtain ⟨o, -, h⟩ := bind_eq_ok.mp h
  rcases o with _ | ⟨chNo, ch⟩
  · exact Except.ok.inj h ▸ hst
  · obtain ⟨g, hex⟩ := s.chViaPtr_fst v chNo ch (st.extras chNo)
    dsimp only at h
    rw [hex] at h
    have hdirect := (hst chNo).2.2
    split_ifs at h
    · exact Except.ok.inj h ▸ hst.modify chNo rfl rfl hdirect
    · exact Except.ok.inj h ▸ hst
    · exact lcPush_unlinked h (hst.modify chNo rfl rfl (by simp))
    · exact lcPush_unlinked h (hst.modify chNo rfl rfl (by simp))
    · exact Except.ok.inj h ▸ hst.modify chNo rfl rfl hdirect

/-- A block is popped. -/
theorem lcPop_unlinked {i : ℕ} (h : s.lcPop st = .ok (some (i, st'))) (hst : st.Unlinked) :
    st'.Unlinked := by
  rw [lcPop] at h
  split at h
  · cases h
  · next k rest hstack =>
    split_ifs at h
    obtain ⟨rfl, rfl⟩ := Prod.mk.inj (Option.some.inj (Except.ok.inj h))
    intro j
    simp only [LeakState.modify, update_apply]
    split_ifs with hj
    · exact ⟨by simp, (hst k).2⟩
    · refine ⟨fun hp => ?_, (hst j).2⟩
      have hmem := (hst j).1 hp
      rw [hstack] at hmem
      exact (mem_cons.mp hmem).resolve_left hj

theorem lcProcessMarkstack_unlinked {fuel : ℕ} (h : s.lcProcessMarkstack none fuel st = .ok st')
    (hst : st.Unlinked) : st'.Unlinked ∧ st'.markstack = [] := by
  induction fuel generalizing st with
  | zero =>
    rw [lcProcessMarkstack] at h
    split_ifs at h with hempty
    exact Except.ok.inj h ▸ ⟨hst, hempty⟩
  | succ fuel ih =>
    rw [lcProcessMarkstack] at h
    obtain ⟨o, hpop, h⟩ := bind_eq_ok.mp h
    rcases o with _ | ⟨top, st₁⟩
    · cases h
      refine ⟨hst, ?_⟩
      rw [lcPop] at hpop
      split at hpop
      · assumption
      · split_ifs at hpop
        cases hpop
    · dsimp only at h
      split at h
      · cases h
      · obtain ⟨st₂, hscan, hrest⟩ := bind_eq_ok.mp h
        refine ih hrest (Client.lcScanMemory_keeps (fun v a b hv ha => ?_) hscan
          (lcPop_unlinked hpop hst))
        exact lcPushWithoutClique_unlinked hv ha

/-- **Marking links nothing**, whatever the heuristics. -/
theorem markReachable_unlinked {roots : List (ℕ × ℕ)} {regs : List ℕ} {fuel : ℕ}
    (h : s.markReachable roots regs fuel = .ok st) : st.Unlinked ∧ st.markstack = [] := by
  rw [markReachable] at h
  obtain ⟨st₁, hroots, h⟩ := bind_eq_ok.mp h
  obtain ⟨st₂, hregs, hstack⟩ := bind_eq_ok.mp h
  have hst₁ : st₁.Unlinked := foldlM_keeps (fun a seg b hb ha =>
    Client.lcScanMemory_keeps (fun v _ _ hv => lcPushWithoutClique_unlinked hv) hb ha) hroots
    LeakState.unlinked_init
  have hst₂ : st₂.Unlinked :=
    foldlM_keeps (fun a v b hb ha => lcPushWithoutClique_unlinked hb ha) hregs hst₁
  exact lcProcessMarkstack_unlinked hstack hst₂

end LeakSearch

/-! ## The forest of cliques -/

namespace LeakState

variable {st : LeakState} {c cur j sz : ℕ}

/-- The clique links: an indirect leak has one. -/
def links (st : LeakState) (i : ℕ) : Option ℕ :=
  if (st.extras i).state = .indirectLeak then some (st.extras i).iorC else none

theorem links_eq_none {i : ℕ} (h : (st.extras i).state = .unreached) : st.links i = none := by
  rw [links, if_neg (by rw [h]; decide)]

/-- A block, with what it leads, joins the clique of `c`, found in `cur`. -/
def absorb (st : LeakState) (c cur j sz : ℕ) : LeakState where
  extras := Function.update
    (Function.update st.extras c { st.extras c with
      iorC := ((st.extras c).iorC + sz + (st.extras j).iorC) % 2 ^ 64 })
    j { st.extras j with state := .indirectLeak, pending := true, iorC := cur }
  markstack := j :: st.markstack

theorem state_absorb (i : ℕ) : ((st.absorb c cur j sz).extras i).state
    = if i = j then .indirectLeak else (st.extras i).state := by
  simp only [absorb, update_apply]
  split_ifs with hj hc
  · rfl
  · rw [hc]
  · rfl

theorem pending_absorb (i : ℕ) : ((st.absorb c cur j sz).extras i).pending
    = if i = j then true else (st.extras i).pending := by
  simp only [absorb, update_apply]
  split_ifs with hj hc
  · rfl
  · rw [hc]
  · rfl

theorem iorC_absorb {i : ℕ} (hi : i ≠ j) : ((st.absorb c cur j sz).extras i).iorC
    = if i = c then ((st.extras c).iorC + sz + (st.extras j).iorC) % 2 ^ 64
      else (st.extras i).iorC := by
  simp only [absorb, update_apply, if_neg hi]
  split_ifs <;> rfl

/-- One root is linked. -/
theorem links_absorb (hc : (st.extras c).state = .unreached) :
    (st.absorb c cur j sz).links = Function.update st.links j (some cur) := by
  funext i
  rw [links, state_absorb, update_apply]
  by_cases hj : i = j
  · subst hj
    rw [if_pos rfl, if_pos rfl, if_pos rfl]
    simp only [absorb, Function.update_self]
  · rw [if_neg hj, if_neg hj, links, iorC_absorb hj]
    by_cases hic : i = c
    · rw [hic, hc, if_neg (by decide), if_neg (by decide)]
    · rw [if_neg hic]

theorem links_congr {st' : LeakState} (hstate : ∀ i, (st'.extras i).state = (st.extras i).state)
    (hior : ∀ i, (st'.extras i).iorC = (st.extras i).iorC) : st'.links = st.links := by
  funext i
  rw [links, links, hstate, hior]

variable {i : ℕ} {rest : List ℕ}

theorem state_popped (k : ℕ) : ((st.popped i rest).extras k).state = (st.extras k).state := by
  rw [extras_popped]

theorem iorC_popped (k : ℕ) : ((st.popped i rest).extras k).iorC = (st.extras k).iorC := by
  rw [extras_popped]

theorem links_popped : (st.popped i rest).links = st.links := links_congr state_popped iorC_popped

end LeakState

namespace LeakSearch

open LeakState Forest Function Chunk

variable (s : LeakSearch)

/-- The blocks are sorted and disjoint, and lie in the client's address space. -/
structure Laid : Prop where
  sorted : s.chunks.Pairwise fun a b => a.stop ≤ b.data
  below : ∀ ch ∈ s.chunks, ch.data + ch.szB + 2 * smSize ≤ 2 ^ 64

/-- The size of a block. -/
def szB (i : ℕ) : ℕ := (s.chunks[i]?).elim 0 Chunk.szB

/-- A word of one block points into the other. -/
def Edge (i j : ℕ) : Prop := ∃ v, s.BlockWord i v ∧ s.Points v j

variable {s} {st st' st₀ : LeakState} {c cur i j v fuel l : ℕ} {rest : List ℕ}

theorem Edge.lt (h : s.Edge i j) : j < s.chunks.length :=
  let ⟨_, _, hp⟩ := h
  hp.lt

/-- Heuristics play no part in finding a block. -/
theorem Laid.ok (h : s.Laid) : ({ s with heuristics := false } : LeakSearch).Ok :=
  ⟨h.sorted, h.below, rfl⟩

/-- Sizes of blocks that lie one behind the other add up to no more than the room they lie in. -/
theorem sum_szB_le {l : List Chunk} (hl : l.Pairwise fun a b => a.stop ≤ b.data) (lo hi : ℕ)
    (hlo : ∀ ch ∈ l, lo ≤ ch.data) (hhi : ∀ ch ∈ l, ch.data + ch.szB ≤ hi) (hle : lo ≤ hi) :
    lo + (l.map Chunk.szB).sum ≤ hi := by
  induction l generalizing lo with
  | nil => simpa using hle
  | cons ch l ih =>
    obtain ⟨hch, hl⟩ := pairwise_cons.mp hl
    have hstop : ch.data + ch.szB ≤ ch.stop := by rw [stop]; omega
    have hrest := ih hl (ch.data + ch.szB) (fun b hb => hstop.trans (hch b hb))
      (fun b hb => hhi b (mem_cons_of_mem _ hb)) (hhi ch mem_cons_self)
    have := hlo ch mem_cons_self
    rw [map_cons, sum_cons]
    omega

theorem Laid.sum_lt (h : s.Laid) : ∑ i ∈ range s.chunks.length, s.szB i < 2 ^ 64 := by
  have hsum : ∑ i ∈ range s.chunks.length, s.szB i = (s.chunks.map Chunk.szB).sum := by
    rw [Finset.sum_range, ← Fin.sum_univ_fun_getElem]
    refine sum_congr rfl fun i _ => ?_
    rw [szB, List.getElem?_eq_getElem i.isLt]
    rfl
  have hle := sum_szB_le h.sorted 0 (2 ^ 64 - 1) (fun _ _ => zero_le)
    (fun ch hch => by
      have := h.below ch hch
      have : 0 < smSize := by decide
      omega) zero_le
  omega

/-- **The cliques so far**: the lost blocks are leaders or linked under one, along edges, and each
leader has the size of what is linked under it. -/
structure Cliques (s : LeakSearch) (st₀ st : LeakState) : Prop where
  marked : ∀ i, (st₀.extras i).state ≠ .unreached → (st.extras i).state = (st₀.extras i).state
  lost : ∀ i, (st₀.extras i).state = .unreached →
    (st.extras i).state = .unreached ∨ (st.extras i).state = .indirectLeak
  edge : ∀ i j, st.links i = some j → s.Edge j i
  leads : ∀ i, (st.extras i).state = .indirectLeak →
    ∃ l, LeadsTo st.links i l ∧ (st.extras l).state = .unreached
  size : ∀ l, (st.extras l).state = .unreached →
    (st.extras l).iorC = below st.links (range s.chunks.length) s.szB l

/-- The stack does not matter. -/
theorem Cliques.congr (h : Cliques s st₀ st)
    (hstate : ∀ i, (st'.extras i).state = (st.extras i).state)
    (hior : ∀ i, (st'.extras i).iorC = (st.extras i).iorC) : Cliques s st₀ st' := by
  have hlinks : st'.links = st.links := links_congr hstate hior
  refine ⟨fun i hi => ?_, fun i hi => ?_, fun i j hij => ?_, fun i hi => ?_, fun l hl => ?_⟩
  · rw [hstate, h.marked i hi]
  · rw [hstate]
    exact h.lost i hi
  · exact h.edge i j (hlinks ▸ hij)
  · obtain ⟨l, hl, hun⟩ := h.leads i (hstate i ▸ hi)
    exact ⟨l, hlinks ▸ hl, (hstate l).trans hun⟩
  · rw [hior, hlinks, h.size l (hstate l ▸ hl)]

/-- **One root is linked** under a block of the clique of `c`. -/
theorem Cliques.absorb (hs : s.Laid) (h : Cliques s st₀ st) (hc : (st.extras c).state = .unreached)
    (hcur : LeadsTo st.links cur c) (hedge : s.Edge cur j) (hj : (st.extras j).state = .unreached)
    (hne : j ≠ c) : Cliques s st₀ (st.absorb c cur j (s.szB j)) := by
  have hroot := links_eq_none hj
  have hlinks : (st.absorb c cur j (s.szB j)).links = update st.links j (some cur) :=
    links_absorb hc
  have hstate : ∀ i, ((st.absorb c cur j (s.szB j)).extras i).state
      = if i = j then .indirectLeak else (st.extras i).state := state_absorb
  refine ⟨fun i hi => ?_, fun i hi => ?_, fun i k hk => ?_, fun i hi => ?_, fun l hl => ?_⟩
  · rw [hstate, if_neg, h.marked i hi]
    rintro rfl
    rw [h.marked i hi] at hj
    exact hi hj
  · rw [hstate]
    split_ifs
    · exact .inr rfl
    · exact h.lost i hi
  · rw [hlinks, update_apply] at hk
    split_ifs at hk with hij
    · rw [hij, ← Option.some.inj hk]
      exact hedge
    · exact h.edge i k hk
  · -- what led to `j` leads to `c` now
    have hold : ∃ l, LeadsTo st.links i l ∧ (st.extras l).state = .unreached := by
      rw [hstate] at hi
      split_ifs at hi with hij
      · exact ⟨j, by rw [hij]; exact .root hroot, hj⟩
      · exact h.leads i hi
    obtain ⟨l, hl, hun⟩ := hold
    simp only [hlinks, leadsTo_link_iff hroot hcur hne.symm, hstate]
    by_cases hlj : l = j
    · exact ⟨c, .inr ⟨hlj ▸ hl, rfl⟩, by rw [if_neg hne.symm, hc]⟩
    · exact ⟨l, .inl ⟨hl, hlj⟩, by rw [if_neg hlj, hun]⟩
  · have hlj : l ≠ j := by
      rintro rfl
      rw [hstate, if_pos rfl] at hl
      exact nomatch hl
    rw [hstate, if_neg hlj] at hl
    rw [iorC_absorb hlj, hlinks]
    by_cases hlc : l = c
    · subst hlc
      have hjS : j ∈ range s.chunks.length := mem_range.mpr hedge.lt
      have hbelow := below_link_root (w := s.szB) hroot hcur hne.symm hjS
      have hle := below_le_sum (update st.links j (some cur))
        (range s.chunks.length) s.szB l
      have hlt := hs.sum_lt
      rw [if_pos rfl, h.size l hl, h.size j hj, hbelow, Nat.mod_eq_of_lt (by omega)]
    · rw [if_neg hlc, h.size l hl, below_link_of_ne hroot hcur hne.symm hlc hlj]

/-- The clique of `c` is being gathered: what is on the stack, and pending, belongs to it. -/
structure Gathering (s : LeakSearch) (st₀ : LeakState) (c : ℕ) (st : LeakState) : Prop where
  cliques : Cliques s st₀ st
  leader : (st.extras c).state = .unreached
  leader_lt : c < s.chunks.length
  pending_iff : ∀ i, (st.extras i).pending ↔ i ∈ st.markstack
  nodup : st.markstack.Nodup
  lt : ∀ i ∈ st.markstack, i < s.chunks.length
  clique : ∀ i ∈ st.markstack, LeadsTo st.links i c

/-- Other leaders are not on the stack. -/
theorem Gathering.not_mem (h : Gathering s st₀ c st) (hj : (st.extras j).state = .unreached)
    (hne : j ≠ c) : j ∉ st.markstack := fun hm =>
  hne ((LeadsTo.root (links_eq_none hj)).unique (h.clique j hm))

/-- **A step of the trace**: a block joins the clique. -/
theorem Gathering.absorb (hs : s.Laid) (h : Gathering s st₀ c st)
    (hcur : LeadsTo st.links cur c) (hedge : s.Edge cur j) (hj : (st.extras j).state = .unreached)
    (hne : j ≠ c) : Gathering s st₀ c (st.absorb c cur j (s.szB j)) where
  cliques := h.cliques.absorb hs h.leader hcur hedge hj hne
  leader := by rw [state_absorb, if_neg hne.symm, h.leader]
  leader_lt := h.leader_lt
  pending_iff i := by
    rw [pending_absorb, LeakState.absorb, mem_cons, ← h.pending_iff]
    split_ifs with hij <;> simp [hij]
  nodup := nodup_cons.mpr ⟨h.not_mem hj hne, h.nodup⟩
  lt := forall_mem_cons.mpr ⟨hedge.lt, h.lt⟩
  clique i hi := by
    have hroot := links_eq_none hj
    rw [links_absorb h.leader, leadsTo_link_iff hroot hcur hne.symm]
    rcases mem_cons.mp hi with rfl | hi
    · exact .inr ⟨.root hroot, rfl⟩
    · exact .inl ⟨h.clique i hi, hne.symm⟩

/-- The top of the stack is popped. -/
theorem Gathering.popped (h : Gathering s st₀ c st) (hst : st.markstack = i :: rest)
    (hp : ∀ j, ((st.popped i rest).extras j).pending ↔ j ∈ rest) :
    Gathering s st₀ c (st.popped i rest) where
  cliques := h.cliques.congr state_popped iorC_popped
  leader := (state_popped c).trans h.leader
  leader_lt := h.leader_lt
  pending_iff := hp
  nodup := (nodup_cons.mp (hst ▸ h.nodup)).2
  lt j hj := h.lt j (hst ▸ mem_cons_of_mem _ hj)
  clique j hj := by
    rw [links_popped]
    exact h.clique j (hst ▸ mem_cons_of_mem _ hj)

/-! ## The trace -/

/-- How many blocks can still be popped, at most, before the clique of `c` is complete. -/
def toGather (s : LeakSearch) (c : ℕ) (st : LeakState) : ℕ :=
  ((range s.chunks.length).filter fun j => j ≠ c ∧ (st.extras j).state = .unreached).card
    + st.markstack.length

/-- A block that joins is pushed once and for all. -/
theorem toGather_absorb (hjlt : j < s.chunks.length) (hj : (st.extras j).state = .unreached)
    (hne : j ≠ c) (sz : ℕ) : s.toGather c (st.absorb c cur j sz) = s.toGather c st := by
  have hset : ((range s.chunks.length).filter fun i =>
        i ≠ c ∧ ((st.absorb c cur j sz).extras i).state = .unreached)
      = ((range s.chunks.length).filter fun i =>
        i ≠ c ∧ (st.extras i).state = .unreached).erase j := by
    ext i
    simp only [mem_filter, mem_erase, state_absorb]
    by_cases hij : i = j <;> simp [hij]
  have hmem : j ∈ (range s.chunks.length).filter fun i =>
      i ≠ c ∧ (st.extras i).state = .unreached :=
    mem_filter.mpr ⟨mem_range.mpr hjlt, hne, hj⟩
  have hcard := Finset.card_erase_add_one hmem
  rw [toGather, toGather, hset, absorb, length_cons]
  omega

/-- What a word does that points into a block. -/
theorem lcPushWithClique_of_points (h : Gathering s st₀ c st) {ch : Chunk}
    (hj : s.chunks[j]? = some ch) (hptr : s.lcIsAChunkPtr v = .ok (some (j, ch))) :
    s.lcPushWithClique v c cur st = .ok (if (st.extras j).state = .unreached ∧ j ≠ c
      then st.absorb c cur j (s.szB j) else st) := by
  have hlt : j < s.chunks.length := (List.getElem?_eq_some_iff.mp hj).1
  have hsz : s.szB j = ch.szB := by rw [szB, hj]; rfl
  rw [lcPushWithClique, if_neg (not_not.mpr h.leader_lt)]
  simp only [hptr, ok_bind, pure_eq_ok]
  split_ifs with hjoin
  · have hnot : j ∉ st.markstack := h.not_mem hjoin.1 hjoin.2
    have hpend : ¬ (st.extras j).pending := fun hp => hnot ((h.pending_iff j).mp hp)
    have hroom := length_lt_of_nodup h.nodup h.lt hlt hnot
    rw [lcPush, if_pos hpend, if_neg (not_not.mpr hroom), ok_bind, absorb, hsz]
    -- the sum is written before the link, and to another block
    refine congrArg (fun ex => Except.ok (⟨ex, j :: st.markstack⟩ : LeakState)) (funext fun i => ?_)
    simp only [LeakState.modify, update_apply]
    by_cases hij : i = j
    · subst hij
      simp [hjoin.2]
    · by_cases hic : i = c <;> simp [hij, hic, hjoin.2.symm]
  · rfl

/-- **A word of a block of the clique.** -/
theorem lcPushWithClique_spec (hs : s.Laid) (h : Gathering s st₀ c st)
    (hcur : LeadsTo st.links cur c) (hv : s.BlockWord cur v) :
    ∃ st', s.lcPushWithClique v c cur st = .ok st' ∧ Gathering s st₀ c st' ∧
      LeadsTo st'.links cur c ∧ s.toGather c st' = s.toGather c st := by
  by_cases hex : ∃ j, s.Points v j
  · obtain ⟨j, hp⟩ := hex
    obtain ⟨ch, hj, hptr⟩ := lcIsAChunkPtr_of_points hs.ok hp
    refine ⟨_, lcPushWithClique_of_points h hj hptr, ?_⟩
    split_ifs with hjoin
    · refine ⟨h.absorb hs hcur ⟨v, hv, hp⟩ hjoin.1 hjoin.2, ?_,
        toGather_absorb hp.lt hjoin.1 hjoin.2 _⟩
      rw [links_absorb h.leader]
      exact hcur.link_of_ne (links_eq_none hjoin.1) hjoin.2.symm
    · exact ⟨h, hcur, rfl⟩
  · have hno : ∀ j, ¬ s.Points v j := fun j hj => hex ⟨j, hj⟩
    refine ⟨st, ?_, h, hcur, rfl⟩
    rw [lcPushWithClique, if_neg (not_not.mpr h.leader_lt)]
    simp only [lcIsAChunkPtr_of_not_points hno, ok_bind, pure_eq_ok]

/-- …and all its words. -/
theorem foldlM_clique_spec (hs : s.Laid) (l : List ℕ) (hl : ∀ v ∈ l, s.BlockWord cur v)
    (h : Gathering s st₀ c st) (hcur : LeadsTo st.links cur c) :
    ∃ st', l.foldlM (fun st v => s.lcPushWithClique v c cur st) st = .ok st' ∧
      Gathering s st₀ c st' ∧ s.toGather c st' = s.toGather c st := by
  induction l generalizing st with
  | nil => exact ⟨st, rfl, h, rfl⟩
  | cons v l ih =>
    obtain ⟨hv, hl⟩ := forall_mem_cons.mp hl
    obtain ⟨st₁, h₁, hg₁, hcur₁, hn₁⟩ := lcPushWithClique_spec hs h hcur hv
    obtain ⟨st₂, h₂, hg₂, hn₂⟩ := ih hl hg₁ hcur₁
    exact ⟨st₂, by rw [foldlM_cons, h₁, ok_bind, h₂], hg₂, hn₂.trans hn₁⟩

theorem toGather_popped (hst : st.markstack = i :: rest) :
    s.toGather c (st.popped i rest) + 1 = s.toGather c st := by
  simp only [toGather, state_popped, hst, length_cons]
  rfl

/-- **A turn of the trace of a leader.** -/
theorem Gathering.turn (hs : s.Laid) (h : Gathering s st₀ c st) (hst : st.markstack = i :: rest) :
    ∃ st₂, s.Turns (some c) i st st₂ ∧ Gathering s st₀ c st₂ ∧
      s.toGather c st₂ < s.toGather c st := by
  have hmem : i ∈ st.markstack := by rw [hst]; exact mem_cons_self
  obtain ⟨hpop, hpend⟩ := lcPop_cons h.pending_iff h.nodup h.lt hst
  obtain ⟨ch, hch⟩ : ∃ ch, s.chunks[i]? = some ch :=
    ⟨_, List.getElem?_eq_getElem (h.lt i hmem)⟩
  obtain ⟨l, heq, hl⟩ := Client.lcScanMemory_eq (c := s.client)
    (fun ptr => s.lcPushWithClique ptr c i) (hs.below ch (mem_of_getElem? hch)) (st.popped i rest)
  obtain ⟨st₂, hscan, h₂, hn₂⟩ := foldlM_clique_spec hs l (fun v hv => ⟨ch, hch, (hl v).mp hv⟩)
    (h.popped hst hpend) (by rw [links_popped]; exact h.clique i hmem)
  have hn := toGather_popped (s := s) (c := c) hst
  exact ⟨st₂, ⟨ch, _, hpop, hch, heq.trans hscan⟩, h₂, by omega⟩

/-! ## The phase -/

/-- The trace begins with a leader on the stack. -/
theorem Cliques.push (h : Cliques s st₀ st) (hidle : ∀ i, ¬ (st.extras i).pending)
    (hst : st.markstack = []) (hi : i < s.chunks.length)
    (hun : (st.extras i).state = .unreached) :
    ∃ st', s.lcPush i st = .ok st' ∧ Gathering s st₀ i st' ∧
      s.toGather i st' ≤ s.chunks.length := by
  have hex := { st with markstack := i :: st.markstack : LeakState }.extras_modify_pending i true
  have hstate := fun k => congrArg LCExtra.state (hex k)
  have hior := fun k => congrArg LCExtra.iorC (hex k)
  have hroom : st.markstack.length < s.chunks.length := by
    rw [hst]
    exact Nat.zero_lt_of_lt hi
  refine ⟨_, by rw [lcPush, if_pos (hidle i), if_neg (not_not.mpr hroom)],
    ⟨h.congr hstate hior, (hstate i).trans hun, hi, fun k => ?_, ?_, ?_, ?_⟩, ?_⟩
  · rw [hex]
    simp [LeakState.modify, hst, hidle k]
  · simp [LeakState.modify, hst]
  · simpa [LeakState.modify, hst] using hi
  · simp only [LeakState.modify, hst, mem_singleton, forall_eq]
    exact .root (links_eq_none ((hstate i).trans hun))
  · have hsub : ((range s.chunks.length).filter fun j =>
        j ≠ i ∧ (st.extras j).state = .unreached) ⊆ (range s.chunks.length).erase i :=
      fun j hj => mem_erase.mpr
        ⟨(mem_filter.mp hj).2.1, (mem_filter.mp hj).1⟩
    have hcard := Finset.card_le_card hsub
    rw [Finset.card_erase_of_mem (mem_range.mpr hi), Finset.card_range] at hcard
    simp only [toGather, hstate]
    simp only [LeakState.modify, hst, length_singleton]
    omega

/-- **One turn of the phase.** -/
theorem gatherClique_spec (hs : s.Laid) (hfuel : s.chunks.length ≤ fuel)
    (h : Cliques s st₀ st) (hidle : ∀ i, ¬ (st.extras i).pending) (hst : st.markstack = [])
    (hi : i < s.chunks.length) :
    ∃ st', s.gatherClique fuel i st = .ok st' ∧ Cliques s st₀ st' ∧
      (∀ i, ¬ (st'.extras i).pending) ∧ st'.markstack = [] := by
  rw [gatherClique, vgAssert_bind hst]
  split_ifs with hun
  · obtain ⟨st₁, hpush, hg₁, hn₁⟩ := h.push hidle hst hi hun
    obtain ⟨st', htrace, hg', hempty⟩ := lcProcessMarkstack_rule (w := s.toGather i)
      (fun _ => Nat.le_add_left _ _) (fun h hst => h.turn hs hst) hg₁ (hn₁.trans hfuel)
    refine ⟨st', ?_, hg'.cliques, fun k hk => ?_, hempty⟩
    · rw [hpush, ok_bind, htrace, ok_bind, vgAssert_bind hempty, vgAssert_bind hg'.leader]
      rfl
    · simpa [hempty] using (hg'.pending_iff k).mp hk
  · exact ⟨st, rfl, h, hidle, hst⟩

/-- **The phase ends**, and no assertion of it fails. -/
theorem gatherCliques_spec (hs : s.Laid) (hfuel : s.chunks.length ≤ fuel)
    (h : Cliques s st₀ st) (hidle : ∀ i, ¬ (st.extras i).pending) (hst : st.markstack = []) :
    ∃ st', s.gatherCliques fuel st = .ok st' ∧ Cliques s st₀ st' := by
  rw [gatherCliques]
  have hlt : ∀ i ∈ List.range s.chunks.length, i < s.chunks.length := fun i => mem_range.mp
  generalize List.range s.chunks.length = order at hlt
  induction order generalizing st with
  | nil => exact ⟨st, rfl, h⟩
  | cons i order ih =>
    obtain ⟨hi, hlt⟩ := forall_mem_cons.mp hlt
    obtain ⟨st₁, h₁, hc₁, hidle₁, hst₁⟩ := gatherClique_spec hs hfuel h hidle hst hi
    obtain ⟨st', h', hc'⟩ := ih hc₁ hidle₁ hst₁ hlt
    exact ⟨st', by rw [foldlM_cons, h₁, ok_bind, h'], hc'⟩

/-- Before the phase every lost block is its own leader. -/
theorem cliques_of_unlinked (s : LeakSearch) (h : st.Unlinked) : Cliques s st st := by
  have hlinks : ∀ i, st.links i = none := fun i => by rw [links, if_neg (h i).2.2]
  refine ⟨fun _ _ => rfl, fun _ hi => .inl hi, fun i j hij => ?_, fun i hi => absurd hi (h i).2.2,
    fun l _ => ?_⟩
  · exact nomatch (hlinks i).symm.trans hij
  · rw [(h l).2.1, below_eq_zero hlinks]

/-- Linked blocks are the indirect leaks. -/
theorem links_ne_none_iff : st.links i ≠ none ↔ (st.extras i).state = .indirectLeak := by
  rw [links]
  split_ifs with h <;> simp [h]

namespace Cliques

/-- The lost blocks are the leaders and the indirect leaks. -/
theorem lost_iff (h : Cliques s st₀ st) (h₀ : ∀ i, (st₀.extras i).state ≠ .indirectLeak) (i : ℕ) :
    ((st.extras i).state = .unreached ∨ (st.extras i).state = .indirectLeak)
      ↔ (st₀.extras i).state = .unreached := by
  refine ⟨fun hi => ?_, h.lost i⟩
  by_contra hne
  rw [h.marked i hne] at hi
  exact hi.elim hne (h₀ i)

/-- A chain of links stays among the blocks. -/
theorem leader_lt (h : Cliques s st₀ st) (hi : i < s.chunks.length)
    (hl : LeadsTo st.links i l) : l < s.chunks.length := by
  induction hl with
  | root _ => exact hi
  | step hxy _ ih =>
    obtain ⟨v, ⟨ch, hch, -⟩, -⟩ := h.edge _ _ hxy
    exact ih (List.getElem?_eq_some_iff.mp hch).1

open Classical in
/-- **What a leader has** is the size of the indirect leaks that lead to it. -/
theorem iorC_eq (h : Cliques s st₀ st) (hl : (st.extras l).state = .unreached) :
    (st.extras l).iorC = ∑ i ∈ range s.chunks.length
      with (st.extras i).state = .indirectLeak ∧ LeadsTo st.links i l, s.szB i := by
  rw [h.size l hl, below]
  simp only [links_ne_none_iff]

/-- **Each lost byte is counted once.** -/
theorem sum_leaders (h : Cliques s st₀ st) (h₀ : ∀ i, (st₀.extras i).state ≠ .indirectLeak) :
    ∑ l ∈ range s.chunks.length with (st.extras l).state = .unreached,
        (s.szB l + (st.extras l).iorC)
      = ∑ i ∈ range s.chunks.length with (st₀.extras i).state = .unreached, s.szB i := by
  classical
  let lost := (range s.chunks.length).filter fun i => (st₀.extras i).state = .unreached
  have hmem : ∀ i, i ∈ lost ↔ i < s.chunks.length ∧ ((st.extras i).state = .unreached
      ∨ (st.extras i).state = .indirectLeak) := fun i => by
    rw [mem_filter, mem_range, h.lost_iff h₀]
  have hleads : ∀ i ∈ lost, ∃ l ∈ lost, LeadsTo st.links i l := by
    intro i hi
    obtain ⟨hlt, hun | hind⟩ := (hmem i).mp hi
    · exact ⟨i, hi, .root (links_eq_none hun)⟩
    · obtain ⟨l, hl, hun⟩ := h.leads i hind
      exact ⟨l, (hmem l).mpr ⟨h.leader_lt hlt hl, .inl hun⟩, hl⟩
  -- what is linked is lost, and what is lost and not linked is a leader
  have hbelow : ∀ l, below st.links (range s.chunks.length) s.szB l
      = below st.links lost s.szB l := by
    intro l
    rw [below, below]
    refine sum_congr (Finset.ext fun i => ?_) fun _ _ => rfl
    simp only [mem_filter, hmem, mem_range, links_ne_none_iff]
    tauto
  have hroots : (range s.chunks.length).filter (fun l => (st.extras l).state = .unreached)
      = lost.filter fun l => st.links l = none := by
    ext l
    rw [mem_filter, mem_filter, hmem, mem_range]
    have hlink : st.links l ≠ none ↔ (st.extras l).state = .indirectLeak := links_ne_none_iff
    constructor
    · rintro ⟨hlt, hun⟩
      exact ⟨⟨hlt, .inl hun⟩, links_eq_none hun⟩
    · rintro ⟨⟨hlt, hl⟩, hnone⟩
      exact ⟨hlt, hl.resolve_right fun hind => hlink.mpr hind hnone⟩
  rw [← sum_roots_below hleads, hroots]
  refine sum_congr rfl fun l hl => ?_
  rw [← hroots] at hl
  rw [h.size l (mem_filter.mp hl).2, hbelow]

end Cliques

open Classical in
/-- **Direct and indirect leaks.**  After the clique phase the lost blocks are the leaders and the
indirect leaks; the links of an indirect leak end in one leader, from which it is reachable; a
leader has the size of the indirect leaks that lead to it; and each lost byte is counted once. -/
theorem cliques_account (blocks : List Chunk) (hblocks : blocks.Pairwise BlocksDisjoint)
    (hchunks : s.chunks = sortChunks blocks)
    (hbelow : ∀ ch ∈ blocks, ch.data + ch.szB + 2 * smSize ≤ 2 ^ 64)
    {roots : List (ℕ × ℕ)} {regs : List ℕ} {markFuel fuel : ℕ}
    (hmark : s.markReachable roots regs markFuel = .ok st) (hfuel : blocks.length ≤ fuel) :
    ∃ st', s.gatherCliques fuel st = .ok st' ∧
      (∀ i < blocks.length,
        ((st'.extras i).state = .unreached ∨ (st'.extras i).state = .indirectLeak)
          ↔ (st.extras i).state = .unreached) ∧
      (∀ i < blocks.length, (st'.extras i).state = .indirectLeak →
        ∃! l, LeadsTo st'.links i l ∧ l < blocks.length ∧ (st'.extras l).state = .unreached ∧
          Relation.ReflTransGen s.Edge l i) ∧
      (∀ l < blocks.length, (st'.extras l).state = .unreached →
        (st'.extras l).iorC = ∑ i ∈ range blocks.length
          with (st'.extras i).state = .indirectLeak ∧ LeadsTo st'.links i l, s.szB i) ∧
      ∑ l ∈ range blocks.length with (st'.extras l).state = .unreached,
          (s.szB l + (st'.extras l).iorC)
        = ∑ i ∈ range blocks.length with (st.extras i).state = .unreached, s.szB i := by
  have hperm : s.chunks.Perm blocks := hchunks ▸ mergeSort_perm _ _
  have hlen := hperm.length_eq
  have hs : s.Laid := ⟨hchunks ▸ pairwise_sortChunks hblocks,
    fun ch hch => hbelow ch (hperm.mem_iff.mp hch)⟩
  obtain ⟨hunlinked, hempty⟩ := markReachable_unlinked hmark
  have hidle : ∀ i, ¬ (st.extras i).pending := fun i hp => by
    simpa [hempty] using (hunlinked i).1 hp
  have hdirect : ∀ i, (st.extras i).state ≠ .indirectLeak := fun i => (hunlinked i).2.2
  obtain ⟨st', hphase, hc⟩ := gatherCliques_spec hs (hlen ▸ hfuel)
    (cliques_of_unlinked s hunlinked) hidle hempty
  rw [← hlen]
  refine ⟨st', hphase, fun i _ => hc.lost_iff hdirect i, fun i hi hind => ?_,
    fun l _ hl => hc.iorC_eq hl, hc.sum_leaders hdirect⟩
  obtain ⟨l, hl, hun⟩ := hc.leads i hind
  exact ⟨l, ⟨hl, hc.leader_lt hi hl, hun, hl.reflTransGen hc.edge⟩, fun r hr => hr.1.unique hl⟩

/-- A block that points to a second, and a second and a third that point to each other. -/
def cycleSearch : LeakSearch where
  client :=
    { isWithinValidSecondary := fun _ => true
      amIsValidForClient := fun _ _ => true
      isValidAlignedWord := fun _ => true
      load := fun a => if a = 0x5000 then some 0x6000 else if a = 0x6000 then some 0x7000
        else if a = 0x7000 then some 0x6008 else some 0
      secondary_eq := fun _ _ _ => rfl
      valid_secondary := fun _ _ => rfl
      readable_eq := fun _ _ _ _ _ => rfl }
  chunks := [⟨0x5000, 16, .malloc⟩, ⟨0x6000, 24, .malloc⟩, ⟨0x7000, 8, .malloc⟩]
  heuristics := false
  heuristicReachedness _ _ := .none

theorem cliques_account_cycle : ∃ st st', cycleSearch.markReachable [] [] 0 = .ok st ∧
    cycleSearch.gatherCliques 3 st = .ok st' ∧
    ∑ l ∈ range 3 with (st'.extras l).state = .unreached,
      (cycleSearch.szB l + (st'.extras l).iorC) = 48 := by
  have hmark : cycleSearch.markReachable [] [] 0 = .ok .init := rfl
  obtain ⟨st', hphase, -, -, -, hsum⟩ := cliques_account cycleSearch.chunks (s := cycleSearch)
    (by simp [cycleSearch, BlocksDisjoint, stop])
    (mergeSort_of_pairwise (by simp [cycleSearch])).symm
    (by simp [cycleSearch, smSize]) hmark (show 3 ≤ 3 by decide)
  exact ⟨.init, st', hmark, hphase, hsum.trans (by decide +kernel)⟩

end LeakSearch

end Valgrind.Memcheck
