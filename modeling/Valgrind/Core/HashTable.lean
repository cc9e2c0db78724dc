import Valgrind.Core.LibcAssert
import Valgrind.Foundations.Refinement

/-!
# Core/HashTable — `coregrind/m_hashtable.c`: a separately-chained hash table

Nodes are prepended to the chain of their key, so that of nodes with one key the most recently added
is found first.  When there are more nodes than chains, `resize` moves all nodes to new chains.  It
walks each old chain from its head and prepends again: the nodes of a key change their order.

What is kept of a table is the list of nodes present, the most recent first.  Lookup and count agree
with it along a run iff no resize meets two nodes with one key, and the `UInt` count does not wrap:
`lookup_most_recent`.
-/

namespace Valgrind

open List Nat
open Refinement (run absRun Admits)

/-- `VgHashNode`; its chain says what `next` is. -/
structure HashNode where
  addr : Addr
  key : UWord
deriving DecidableEq

/-- `struct _VgHashTable`, without the position of the iterator and the name. -/
structure VgHashTable where
  nChains : ℕ
  nElements : ℕ
  chains : List (List HashNode)
  iterOK : Bool

namespace VgHashTable

/-! ## The code -/

/-- `primes`. -/
def primes : List ℕ :=
  [769, 1543, 3079, 6151, 12289, 24593, 49157, 98317, 196613, 393241, 786433, 1572869, 3145739,
    6291469, 12582917, 25165843, 50331653, 100663319, 201326611, 402653189]

/-- `primes[0]`. -/
def firstPrime : ℕ := 769

/-- `primes[N_HASH_PRIMES-1]`. -/
def lastPrime : ℕ := 402653189

/-- `CHAIN_NO`. -/
def chainNo (key : UWord) (table : VgHashTable) : ℕ := key % table.nChains

/-- `chains[i]`. -/
def chainAt (chains : List (List HashNode)) (i : ℕ) : List HashNode := chains.getD i []

/-- `node->next = chains[i]; chains[i] = node`. -/
def prepend (chains : List (List HashNode)) (i : ℕ) (node : HashNode) : List (List HashNode) :=
  chains.modify i (node :: ·)

/-- `VG_(HT_construct)`. -/
def construct : VgHashTable where
  nChains := firstPrime
  nElements := 0
  chains := List.replicate firstPrime []
  iterOK := true

/-- `VG_(HT_count_nodes)`. -/
def countNodes (table : VgHashTable) : ℕ := table.nElements

/-- The number of chains that `resize` goes to. -/
def newChains (oldChains : ℕ) : ℕ := (primes.find? (· > oldChains + 1)).getD (oldChains + 1)

/-- The loop of `resize` that moves the nodes. -/
def moveNodes (oldChains : List (List HashNode)) (n : ℕ) : List (List HashNode) :=
  oldChains.foldl (fun chains chain => chain.foldl
    (fun chains node => prepend chains (node.key % n) node) chains) (List.replicate n [])

/-- `resize`. -/
def resize (table : VgHashTable) : Except Abort VgHashTable :=
  let old := table.nChains
  -- Out of primes: do nothing.
  if old = lastPrime then .ok table
  else if ¬ (firstPrime ≤ old ∧ old < lastPrime) then .error .assertion
  else
    let new := newChains old
    if ¬ old < new then .error .assertion
    else if ¬ (firstPrime < new ∧ new ≤ lastPrime) then .error .assertion
    else .ok { table with nChains := new, chains := moveNodes table.chains new }

/-- `VG_(HT_add_node)`. -/
def addNode (table : VgHashTable) (node : HashNode) : Except Abort VgHashTable := do
  let table := { table with
    chains := prepend table.chains (chainNo node.key table) node
    nElements := (table.nElements + 1) % 2 ^ 32 }
  let table ← if table.nElements > table.nChains then resize table else pure table
  return { table with iterOK := false }

/-- `VG_(HT_lookup)`. -/
def lookup (table : VgHashTable) (key : UWord) : Option HashNode :=
  (chainAt table.chains (chainNo key table)).find? (·.key = key)

/-- `VG_(HT_remove)`: the node removed, or NULL. -/
def remove (table : VgHashTable) (key : UWord) : Option HashNode × VgHashTable :=
  let chain := chainNo key table
  match (chainAt table.chains chain).find? (·.key = key) with
  | some curr => (some curr,
    { table with
      chains := table.chains.modify chain (·.eraseP (·.key = key))
      nElements := (table.nElements + (2 ^ 32 - 1)) % 2 ^ 32
      iterOK := false })
  | none => (none, { table with iterOK := false })

/-! ## The nodes present -/

/-- A call that changes the table. -/
inductive Op where
  | add (node : HashNode)
  | remove (key : UWord)

/-- A call of the table; only `remove` returns something. -/
def step (table : VgHashTable) : Op → Except Abort (Option HashNode × VgHashTable)
  | .add node => do return (none, ← table.addNode node)
  | .remove key => .ok (table.remove key)

/-- What a call does to the nodes present, the most recent first. -/
def act (nodes : List HashNode) : Op → Option HashNode × List HashNode
  | .add node => (none, node :: nodes)
  | .remove key => (nodes.find? (·.key = key), nodes.eraseP (·.key = key))

/-- Lookup and count are right: a lookup returns the most recent node with the key, and NULL iff
there is none; the count is the number of nodes. -/
structure Agrees (table : VgHashTable) (nodes : List HashNode) : Prop where
  lookup : ∀ key, table.lookup key = nodes.find? (·.key = key)
  count : table.countNodes = nodes.length

/-- The nodes with a key, in order. -/
def withKey (key : UWord) (nodes : List HashNode) : List HashNode := nodes.filter (·.key = key)

/-- The `n` chains hold the given nodes, those of one key in their order. -/
structure Chained (n : ℕ) (chains : List (List HashNode)) (nodes : List HashNode) : Prop where
  length_eq : chains.length = n
  key_mod : ∀ i, ∀ m ∈ chainAt chains i, m.key % n = i
  withKey_eq : ∀ key, withKey key (chainAt chains (key % n)) = withKey key nodes

/-- The table holds the nodes present. -/
structure Represents (table : VgHashTable) (nodes : List HashNode) : Prop where
  prime : table.nChains ∈ primes
  chained : Chained table.nChains table.chains nodes
  count_eq : table.nElements = nodes.length
  count_lt : nodes.length < 2 ^ 32
  nodup : nodes.Nodup

/-- The next `HT_add_node` resizes the table. -/
def Resizes (table : VgHashTable) : Prop :=
  table.nChains < table.nElements + 1 ∧ table.nChains ≠ lastPrime

/-- An added node is new: it is not in the table. -/
def Fresh (_ : VgHashTable) (nodes : List HashNode) : Op → Prop
  | .add node => node ∉ nodes
  | .remove _ => True

/-- If adding a node makes the table resize, no two nodes then have one key; and the number of nodes
fits a `UInt`. -/
def NoDuplicates (table : VgHashTable) (nodes : List HashNode) : Op → Prop
  | .add node => (Resizes table → ((node :: nodes).map HashNode.key).Nodup)
    ∧ nodes.length + 1 < 2 ^ 32
  | .remove _ => True

/-! ## Chains -/

variable {chains : List (List HashNode)} {nodes ns : List HashNode} {table t : VgHashTable}
  {node : HashNode} {key : UWord} {i j : ℕ}

theorem prime_pos : ∀ n ∈ primes, 0 < n := by decide

theorem newChains_spec : ∀ n ∈ primes, n ≠ lastPrime →
    firstPrime ≤ n ∧ n < lastPrime ∧ n < newChains n ∧ newChains n ∈ primes
      ∧ firstPrime < newChains n ∧ newChains n ≤ lastPrime := by decide

theorem chainAt_modify (hi : i < chains.length) (f : List HashNode → List HashNode) (j : ℕ) :
    chainAt (chains.modify i f) j = if j = i then f (chainAt chains i) else chainAt chains j := by
  rw [chainAt, chainAt, chainAt, getD_eq_getElem?_getD, getElem?_modify,
    getD_eq_getElem?_getD]
  split_ifs with h h' h'
  · subst h
    simp [hi]
  · exact absurd h.symm h'
  · exact absurd h'.symm h
  · simp

theorem find?_eq_head? (key : UWord) (nodes : List HashNode) :
    nodes.find? (·.key = key) = (withKey key nodes).head? := head?_filter.symm

theorem withKey_cons (key : UWord) (node : HashNode) (nodes : List HashNode) :
    withKey key (node :: nodes)
      = if node.key = key then node :: withKey key nodes else withKey key nodes := by
  simp [withKey, filter_cons]

/-- Removing the first node with a key leaves the others. -/
theorem withKey_eraseP (key key' : UWord) (nodes : List HashNode) :
    withKey key' (nodes.eraseP (·.key = key))
      = if key' = key then (withKey key nodes).tail else withKey key' nodes := by
  induction nodes with
  | nil => split_ifs <;> rfl
  | cons m nodes ih =>
    by_cases hm : m.key = key
    · rw [eraseP_cons_of_pos (by simpa using hm), withKey_cons, withKey_cons, if_pos hm]
      split_ifs with hkey hkey'
      · rw [hkey, tail_cons]
      · exact absurd (hkey'.symm.trans hm) hkey
      · rfl
    · rw [eraseP_cons_of_neg (by simpa using hm), withKey_cons, ih, withKey_cons, withKey_cons,
        if_neg hm]
      split_ifs with hkey hkey'
      · exact absurd (hkey.trans hkey') hm
      · rfl
      · rfl
      · rfl

theorem chained_replicate (n : ℕ) : Chained n (List.replicate n []) [] := by
  have hempty : ∀ i, chainAt (List.replicate n []) i = [] := fun i => by
    rw [chainAt, getD_eq_getElem?_getD, getElem?_replicate]
    split_ifs <;> rfl
  exact ⟨length_replicate, fun i m hm => by simp [hempty] at hm, fun key => by rw [hempty]⟩

namespace Chained

variable {n : ℕ}

section

variable (h : Chained n chains nodes)
include h

/-- Prepending a node makes it the most recent. -/
theorem prepend (hn : 0 < n) (node : HashNode) :
    Chained n (prepend chains (node.key % n) node) (node :: nodes) := by
  have hi : node.key % n < chains.length := h.length_eq.symm ▸ mod_lt _ hn
  refine ⟨(length_modify ..).trans h.length_eq, fun i m hm => ?_, fun key => ?_⟩
  · rw [VgHashTable.prepend, chainAt_modify hi] at hm
    split_ifs at hm with hij
    · rcases mem_cons.mp hm with rfl | hm
      · exact hij.symm
      · exact hij ▸ h.key_mod _ m hm
    · exact h.key_mod i m hm
  · rw [VgHashTable.prepend, chainAt_modify hi, withKey_cons]
    by_cases hkey : node.key = key
    · subst hkey
      rw [if_pos rfl, if_pos rfl, withKey_cons, if_pos rfl, h.withKey_eq]
    · rw [if_neg hkey, ← h.withKey_eq]
      split_ifs with hij
      · rw [withKey_cons, if_neg hkey, hij]
      · rfl

/-- Prepending one node after the other reverses them. -/
theorem foldl_prepend (hn : 0 < n) (ns : List HashNode) :
    Chained n (ns.foldl (fun chains node => VgHashTable.prepend chains (node.key % n) node) chains)
      (ns.reverse ++ nodes) := by
  induction ns generalizing chains nodes with
  | nil => exact h
  | cons m ns ih =>
    rw [foldl_cons, reverse_cons, append_assoc]
    exact ih (h.prepend hn m)

/-- The nodes with a key are in one chain. -/
theorem withKey_flatten (key : UWord) : withKey key chains.flatten = withKey key nodes := by
  have hone : ∀ (ls : List (List HashNode)) (i : ℕ), (∀ j, j ≠ i → ls.getD j [] = []) →
      ls.flatten = ls.getD i [] := by
    intro ls
    induction ls with
    | nil => exact fun i _ => rfl
    | cons l ls ih =>
      intro i hi
      cases i with
      | zero =>
        have hls : ls.flatten = [] := by
          refine flatten_eq_nil_iff.mpr fun l' hl' => ?_
          obtain ⟨j, hj, rfl⟩ := getElem_of_mem hl'
          simpa [hj] using hi (j + 1) (succ_ne_zero j)
        simp [hls]
      | succ i =>
        have hl : l = [] := by simpa using hi 0 (succ_ne_zero i).symm
        have hrest := ih i fun j hj => by simpa using hi (j + 1) (by omega)
        rw [flatten_cons, hl, nil_append, hrest]
        rfl
  have hmap : ∀ i, (chains.map (withKey key)).getD i [] = withKey key (chainAt chains i) := by
    intro i
    rw [chainAt, getD_eq_getElem?_getD, getD_eq_getElem?_getD, getElem?_map]
    cases chains[i]? <;> rfl
  have hflat : withKey key chains.flatten = (chains.map (withKey key)).flatten :=
    filter_flatten ..
  rw [hflat, hone _ (key % n), hmap, h.withKey_eq]
  intro j hj
  rw [hmap]
  refine filter_eq_nil_iff.mpr fun m hm hkey => hj ?_
  rw [← h.key_mod j m hm, of_decide_eq_true hkey]

/-- **Moving the nodes reverses those of one key.** -/
theorem moveNodes {n' : ℕ} (hn : 0 < n') : Chained n' (moveNodes chains n') nodes.reverse := by
  have hmove : VgHashTable.moveNodes chains n' = chains.flatten.foldl
      (fun chains node => VgHashTable.prepend chains (node.key % n') node)
      (List.replicate n' []) := foldl_flatten.symm
  have hnew := (chained_replicate n').foldl_prepend hn chains.flatten
  rw [append_nil, ← hmove] at hnew
  refine ⟨hnew.length_eq, hnew.key_mod, fun key => ?_⟩
  rw [hnew.withKey_eq, withKey, filter_reverse, ← withKey, h.withKey_flatten, withKey, withKey,
    filter_reverse]

/-- Removing the first node with a key from its chain removes the most recent. -/
theorem eraseP (hn : 0 < n) (key : UWord) :
    Chained n (chains.modify (key % n) (·.eraseP (·.key = key))) (nodes.eraseP (·.key = key)) := by
  have hi : key % n < chains.length := h.length_eq.symm ▸ mod_lt _ hn
  refine ⟨(length_modify ..).trans h.length_eq, fun i m hm => ?_, fun key' => ?_⟩
  · rw [chainAt_modify hi] at hm
    split_ifs at hm with hij
    · exact hij ▸ h.key_mod _ m (mem_of_mem_eraseP hm)
    · exact h.key_mod i m hm
  · rw [chainAt_modify hi, withKey_eraseP, ← h.withKey_eq, ← h.withKey_eq]
    by_cases hkey : key' = key
    · rw [hkey, if_pos rfl, if_pos rfl, withKey_eraseP, if_pos rfl]
    · rw [if_neg hkey]
      split_ifs with hij
      · rw [withKey_eraseP, if_neg hkey, hij]
      · rfl

theorem lookup (key : UWord) :
    (chainAt chains (key % n)).find? (·.key = key) = nodes.find? (·.key = key) := by
  rw [find?_eq_head?, find?_eq_head?, h.withKey_eq]

end

end Chained

/-! ## The calls -/

/-- Where keys differ, reversing does not change the order of nodes with one key… -/
theorem withKey_reverse (h : (nodes.map HashNode.key).Nodup) (key : UWord) :
    withKey key nodes.reverse = withKey key nodes := by
  have hall : ∀ a ∈ withKey key nodes, ∀ b ∈ withKey key nodes, a = b := by
    intro a ha b hb
    obtain ⟨ha, hka⟩ := mem_filter.mp ha
    obtain ⟨hb, hkb⟩ := mem_filter.mp hb
    exact inj_on_of_nodup_map h ha hb
      ((of_decide_eq_true hka).trans (of_decide_eq_true hkb).symm)
  have hnodup : (withKey key nodes).Nodup := h.of_map.filter _
  rw [withKey, filter_reverse, ← withKey]
  match hw : withKey key nodes with
  | [] => rfl
  | [_] => rfl
  | a :: b :: l =>
    rw [hw] at hall hnodup
    have hab : a = b := hall a (by simp) b (by simp)
    exact absurd (hab ▸ mem_cons_self) (nodup_cons.mp hnodup).1

/-- …and where it leaves the first node of a key in front, the key has no other. -/
theorem eq_of_head?_eq_getLast? {l : List HashNode} (hl : l.Nodup) (h : l.head? = l.getLast?) :
    ∀ a ∈ l, ∀ b ∈ l, a = b := by
  match l with
  | [] => exact fun a ha => absurd ha not_mem_nil
  | [c] =>
    intro a ha b hb
    rw [mem_singleton.mp ha, mem_singleton.mp hb]
  | c :: d :: l =>
    have hlast : (d :: l).getLast? = some c := by simpa using h.symm
    exact absurd (mem_of_getLast? hlast) (nodup_cons.mp hl).1

theorem resize_spec (table : VgHashTable) (hp : table.nChains ∈ primes)
    (hlast : table.nChains ≠ lastPrime) :
    table.resize = .ok { table with
      nChains := newChains table.nChains
      chains := moveNodes table.chains (newChains table.nChains) } := by
  obtain ⟨hlo, hhi, hlt, -, hnlo, hnhi⟩ := newChains_spec _ hp hlast
  simp [resize, hlast, hlo, hhi, hlt, hnlo, hnhi]

section

variable (h : Represents table nodes)
include h

/-- **What adding a node does**: it becomes the most recent, but a resize reverses the order. -/
theorem addNode_spec (node : HashNode) :
    ∃ t l, table.addNode node = .ok t ∧ t.nChains ∈ primes
      ∧ t.nElements = (nodes.length + 1) % 2 ^ 32 ∧ Chained t.nChains t.chains l
      ∧ (l = node :: nodes ∧ (Resizes table → nodes.length + 1 = 2 ^ 32)
        ∨ l = (node :: nodes).reverse ∧ Resizes table) := by
  have hcount := h.count_eq
  have hlt := h.count_lt
  have hchained := h.chained.prepend (prime_pos _ h.prime) node
  let added : VgHashTable := { table with
    chains := prepend table.chains (node.key % table.nChains) node
    nElements := (nodes.length + 1) % 2 ^ 32 }
  have hadd : table.addNode node
      = if table.nChains < (nodes.length + 1) % 2 ^ 32 then
          added.resize >>= fun t => .ok { t with iterOK := false }
        else .ok { added with iterOK := false } := by
    rw [addNode, hcount]
    rfl
  rw [hadd]
  by_cases hmore : table.nChains < (nodes.length + 1) % 2 ^ 32
  · rw [if_pos hmore]
    by_cases hlast : table.nChains = lastPrime
    · have hres : added.resize = .ok added := if_pos hlast
      rw [hres, ok_bind]
      exact ⟨_, _, rfl, h.prime, rfl, hchained, .inl ⟨rfl, fun hr => absurd hlast hr.2⟩⟩
    · obtain ⟨-, -, -, hnew, -⟩ := newChains_spec _ h.prime hlast
      have hres := resize_spec added h.prime hlast
      rw [hres, ok_bind]
      refine ⟨_, _, rfl, hnew, rfl, hchained.moveNodes (prime_pos _ hnew), .inr ⟨rfl, ?_, hlast⟩⟩
      omega
  · rw [if_neg hmore]
    refine ⟨_, _, rfl, h.prime, rfl, hchained, .inl ⟨rfl, fun hr => ?_⟩⟩
    have := hr.1
    omega

/-- **Adding without a duplicate at a resize keeps the nodes in order…** -/
theorem addNode_good (hfresh : node ∉ nodes) (hgood : NoDuplicates table nodes (.add node)) :
    ∃ t, table.addNode node = .ok t ∧ Represents t (node :: nodes) := by
  obtain ⟨hkeys, hlt⟩ := hgood
  obtain ⟨t, l, hok, hprime, hcount, hchained, hl⟩ := addNode_spec h node
  rw [mod_eq_of_lt hlt] at hcount
  refine ⟨t, hok, hprime, ?_, hcount, hlt, nodup_cons.mpr ⟨hfresh, h.nodup⟩⟩
  obtain ⟨rfl, -⟩ | ⟨rfl, hres⟩ := hl
  · exact hchained
  · refine ⟨hchained.length_eq, hchained.key_mod, fun key => ?_⟩
    rw [hchained.withKey_eq, withKey_reverse (hkeys hres)]

/-- …and otherwise the count or a lookup is wrong at once. -/
theorem addNode_bad (hfresh : node ∉ nodes)
    (hok : table.addNode node = .ok t) (hagree : Agrees t (node :: nodes)) :
    NoDuplicates table nodes (.add node) := by
  obtain ⟨t', l, hok', hprime, hcount, hchained, hl⟩ := addNode_spec h node
  obtain rfl := Except.ok.inj (hok'.symm.trans hok)
  have hlen : t'.nElements = nodes.length + 1 := hagree.count
  have hlt : nodes.length + 1 < 2 ^ 32 := by
    rw [← hlen, hcount]
    exact mod_lt _ (by norm_num)
  have hnodup : (node :: nodes).Nodup := nodup_cons.mpr ⟨hfresh, h.nodup⟩
  refine ⟨fun hres => (nodup_map_iff_inj_on hnodup).mpr fun a ha b hb hab => ?_, hlt⟩
  obtain ⟨-, hnot⟩ | ⟨rfl, -⟩ := hl
  · have := hnot hres
    omega
  · -- The lookup finds the least recent node of the key; it is to be the most recent one.
    have hlookup := hagree.lookup a.key
    rw [lookup, chainNo, hchained.lookup, find?_eq_head?, find?_eq_head?, withKey, withKey,
      filter_reverse, head?_reverse] at hlookup
    refine eq_of_head?_eq_getLast? (hnodup.filter _) hlookup.symm a ?_ b ?_
    · exact mem_filter.mpr ⟨ha, by simp⟩
    · exact mem_filter.mpr ⟨hb, by simp [hab]⟩

/-- **Removing a key removes its most recent node**, and returns it. -/
theorem remove_spec (key : UWord) : (table.remove key).1 = nodes.find? (·.key = key)
      ∧ Represents (table.remove key).2 (nodes.eraseP (·.key = key)) := by
  have hfind : (chainAt table.chains (chainNo key table)).find? (·.key = key)
      = nodes.find? (·.key = key) := h.chained.lookup key
  cases hc : nodes.find? (·.key = key) with
  | none =>
    have hnone : nodes.eraseP (·.key = key) = nodes :=
      eraseP_of_forall_not (find?_eq_none.mp hc)
    rw [remove, hfind, hc, hnone]
    exact ⟨rfl, h.prime, h.chained, h.count_eq, h.count_lt, h.nodup⟩
  | some curr =>
    have hlen := length_eraseP_of_mem (mem_of_find?_eq_some hc) (find?_some hc)
    have hpos := length_pos_of_mem (mem_of_find?_eq_some hc)
    have hcount := h.count_eq
    have hlt := h.count_lt
    have hless : (table.nElements + (2 ^ 32 - 1)) % 2 ^ 32 = nodes.length - 1 := by omega
    rw [remove, hfind, hc]
    dsimp only
    rw [hless]
    exact ⟨rfl, h.prime, h.chained.eraseP (prime_pos _ h.prime) key, hlen.symm,
      by omega, h.nodup.sublist eraseP_sublist⟩

theorem Represents.agrees : Agrees table nodes :=
  ⟨h.chained.lookup, h.count_eq⟩

end

theorem represents_construct : Represents construct [] :=
  ⟨by decide, chained_replicate _, rfl, by norm_num, nodup_nil⟩

/-! ## Runs -/

/-- A good call keeps the nodes in order… -/
theorem step_good {op : Op} (h : Represents table nodes) (hfresh : Fresh table nodes op)
    (hgood : NoDuplicates table nodes op) :
    ∃ t, step table op = .ok ((act nodes op).1, t) ∧ Represents t (act nodes op).2 := by
  cases op with
  | add node =>
    obtain ⟨t, hok, ht⟩ := addNode_good h hfresh hgood
    exact ⟨t, by rw [step, hok]; rfl, ht⟩
  | remove key =>
    obtain ⟨hret, ht⟩ := remove_spec h key
    exact ⟨_, congrArg Except.ok (Prod.ext hret rfl), ht⟩

/-- …and any other call is seen by a lookup or the count. -/
theorem step_bad {op : Op} (h : Represents table nodes)
    (hfresh : Fresh table nodes op) (hok : step table op = .ok ((act nodes op).1, t))
    (hagree : Agrees t (act nodes op).2) : NoDuplicates table nodes op := by
  cases op with
  | add node =>
    obtain ⟨t', hadd, heq⟩ := bind_eq_ok.mp hok
    cases heq
    exact addNode_bad h hfresh hadd hagree
  | remove key => trivial

/-- **Lookups find the most recent node iff no resize meets a duplicate.**  Along a run of additions
and removals, after every call the lookups and the count are those of the nodes present, and every
removal returned the most recent node, iff whenever an addition makes the table resize no two nodes
have one key, and there are never 2^32 nodes. -/
theorem lookup_most_recent (ops : List Op) (hfresh : Admits step act Fresh construct [] ops) :
    (∀ p, p <+: ops → ∃ table, run step construct p = .ok ((absRun act [] p).1, table)
        ∧ Agrees table (absRun act [] p).2)
      ↔ Admits step act NoDuplicates construct [] ops := by
  refine Refinement.prefixes_iff (R := Represents) ?_ ?_ ?_ represents_construct hfresh
  · exact fun _ _ => Represents.agrees
  · exact fun _ _ _ => step_good
  · exact fun _ _ _ _ => step_bad

/-- Two nodes with different keys, the first removed again. -/
theorem lookup_most_recent_pair :
    Admits step act Fresh construct [] [.add ⟨16, 5⟩, .add ⟨32, 6⟩, .remove 5] ∧
      ∀ p, p <+: [Op.add ⟨16, 5⟩, .add ⟨32, 6⟩, .remove 5] →
        ∃ table, run step construct p = .ok ((absRun act [] p).1, table)
          ∧ Agrees table (absRun act [] p).2 := by
  refine (and_iff_left_of_imp fun hfresh => (lookup_most_recent _ hfresh).mpr ?_).mpr ?_
  · exact ⟨⟨fun _ => by decide, by decide⟩, fun _ _ _ => ⟨⟨fun _ => by decide, by decide⟩,
      fun _ _ _ => ⟨trivial, fun _ _ _ => trivial⟩⟩⟩
  · exact ⟨not_mem_nil, fun _ _ _ => ⟨(by decide : _ ∉ [_]),
      fun _ _ _ => ⟨trivial, fun _ _ _ => trivial⟩⟩⟩

/-- Of 770 nodes with one key, the last makes the table resize; the lookup then finds the one that
was added first. -/
theorem resize_reverses :
    (run step construct ((List.range 770).map fun i => .add ⟨i, 0⟩)).map (·.2.lookup 0)
        = .ok (some ⟨0, 0⟩)
      ∧ (absRun act [] ((List.range 770).map fun i => .add ⟨i, 0⟩)).2.find? (·.key = 0)
        = some ⟨769, 0⟩ := by
  decide +kernel

end VgHashTable

end Valgrind
