import Valgrind.CgMerge.Maps

/-!
# CgMerge/Counts — the two-level map of a profile, and what adding to it does

Counts are added component by component modulo 2⁶⁴.  A two-level map stands for a partial function
from files and functions to partial functions from lines to counts (`view`).  All that `cg_merge`
does to it is to merge in others: one line of a file (`addToOuterMap_spec`), or one function of
another profile (`mergeFileFn_spec`).
-/

namespace Valgrind.CgMerge

open Function FiniteMap WordFM Nat SortedList.Ordered
open List hiding merge

/-! ## Vectors of counts -/

/-- The component-wise sum modulo 2⁶⁴. -/
def plus (a b : Counts) : Counts := List.zipWith (fun x y => (x + y) % 2 ^ 64) a b

/-- A vector of `n` 64-bit counts. -/
structure IsVec (n : ℕ) (c : Counts) : Prop where
  length_eq : c.length = n
  lt : ∀ x ∈ c, x < 2 ^ 64

/-- The components as residues, zero beyond the end. -/
def vec (c : Counts) : ℕ → ZMod (2 ^ 64) := fun i => (c.getD i 0 : ℕ)

variable {n i : ℕ} {a b c : Counts}

theorem addCounts_eq (h : a.length = b.length) : addCounts a b = .ok (plus a b) :=
  if_neg (not_not.mpr h)

theorem IsVec.plus (ha : IsVec n a) (hb : IsVec n b) : IsVec n (plus a b) := by
  refine ⟨by simp [CgMerge.plus, ha.length_eq, hb.length_eq], fun x hx => ?_⟩
  obtain ⟨i, hi, rfl⟩ := getElem_of_mem hx
  simp only [CgMerge.plus, getElem_zipWith]
  exact mod_lt _ (by norm_num)

theorem isVec_zero (n : ℕ) : IsVec n (List.replicate n 0) :=
  ⟨length_replicate, fun x hx => by simp [eq_of_mem_replicate hx]⟩

theorem vec_of_lt (h : i < a.length) : vec a i = (a[i] : ℕ) := by
  simp [vec, getD_eq_getElem?_getD, h]

theorem vec_of_le (h : c.length ≤ i) : vec c i = 0 := by
  simp [vec, getD_eq_getElem?_getD, h]

theorem vec_zero (n : ℕ) : vec (List.replicate n 0) = 0 := by
  funext i
  rcases lt_or_ge i n with h | h
  · rw [vec_of_lt (by simpa using h)]
    simp
  · rw [vec_of_le (by simpa using h)]
    rfl

/-- Addition modulo 2⁶⁴ is addition of residues. -/
theorem vec_plus (h : a.length = b.length) : vec (plus a b) = vec a + vec b := by
  have hlen : (plus a b).length = a.length := by simp [plus, h]
  funext i
  rw [Pi.add_apply]
  rcases lt_or_ge i a.length with hi | hi
  · have hib : i < b.length := h ▸ hi
    have hip : i < (plus a b).length := hlen.symm ▸ hi
    have hp : (plus a b)[i] = (a[i] + b[i]) % 2 ^ 64 := getElem_zipWith
    rw [vec_of_lt hip, vec_of_lt hi, vec_of_lt hib, hp, ZMod.natCast_mod, cast_add]
  · have hib : b.length ≤ i := h ▸ hi
    have hip : (plus a b).length ≤ i := hlen.symm ▸ hi
    rw [vec_of_le hip, vec_of_le hi, vec_of_le hib, add_zero]

/-- A vector is known by its residues. -/
theorem IsVec.ext (ha : IsVec n a) (hb : IsVec n b) (h : vec a = vec b) : a = b := by
  refine ext_getElem (ha.length_eq.trans hb.length_eq.symm) fun i hia hib => ?_
  have hi := congrFun h i
  rw [vec_of_lt hia, vec_of_lt hib, ZMod.natCast_eq_natCast_iff'] at hi
  rwa [mod_eq_of_lt (ha.lt _ (getElem_mem hia)),
    mod_eq_of_lt (hb.lt _ (getElem_mem hib))] at hi

theorem plus_comm (a b : Counts) : plus a b = plus b a :=
  zipWith_comm_of_comm fun x y => by rw [add_comm]

theorem plus_assoc (a b c : Counts) : plus (plus a b) c = plus a (plus b c) := by
  refine ext_getElem (by simp [plus, min_assoc]) fun i _ _ => ?_
  simp [plus, mod_add_mod, add_mod_mod, add_assoc]

instance : Std.Commutative plus := ⟨plus_comm⟩

instance : Std.Associative plus := ⟨plus_assoc⟩

/-! ## Maps from lines to counts -/

/-- A map from lines to vectors of `n` counts. -/
structure LineMap (n : ℕ) (m : InnerMap) : Prop where
  valid : Valid cmpUnboxedUWord m
  line_lt : ∀ l c, getFM m l = some c → l < 2 ^ 64
  isVec : ∀ l c, getFM m l = some c → IsVec n c

theorem lineMap_newFM (n : ℕ) : LineMap n (WordFM.newFM cmpUnboxedUWord) :=
  ⟨valid_newFM _, nofun, nofun⟩

theorem mergeLine_eq (m : InnerMap) (l : UWord) (c : Counts) :
    mergeLine m (l, c) = addCountsToMap m l c := by
  rw [mergeLine, addCountsToMap]
  cases getFM m l <;> rfl

variable {m m' : InnerMap} {l : UWord}

/-- A key of a map is bound anew, or added. -/
theorem LineMap.of_update (h : LineMap n m) (hv : Valid cmpUnboxedUWord m')
    (hget : getFM m' = Function.update (getFM m) l (some c)) (hl : l < 2 ^ 64) (hc : IsVec n c) :
    LineMap n m' := by
  refine ⟨hv, fun l' c' hg => ?_, fun l' c' hg => ?_⟩
  all_goals
    rw [hget, update_apply] at hg
    split_ifs at hg with hll
  · exact hll ▸ hl
  · exact h.line_lt l' c' hg
  · exact Option.some.inj hg ▸ hc
  · exact h.isVec l' c' hg

/-- **Adding counts to a map merges them in.** -/
theorem addCountsToMap_spec (h : LineMap n m) (hl : l < 2 ^ 64) (hc : IsVec n c) :
    ∃ m', addCountsToMap m l c = .ok m' ∧ LineMap n m'
      ∧ getFM m' = merge plus (getFM m) (single l c) := by
  rw [addCountsToMap]
  cases hg : getFM m l with
  | none =>
    obtain ⟨m', hadd, hv, hget⟩ := h.valid.addFM l c
    exact ⟨m', hadd, h.of_update hv hget hl hc, hget.trans (update_eq_merge (by simp [hg]))⟩
  | some old =>
    have hold := h.isVec l old hg
    obtain ⟨hv, hget⟩ := h.valid.assign hg (plus old c)
    refine ⟨_, ?_, h.of_update hv hget hl (hold.plus hc), hget.trans (update_eq_merge (by simp [hg]))⟩
    simp [addCounts_eq (hold.length_eq.trans hc.length_eq.symm)]

/-- **Adding a list of lines merges them in.** -/
theorem foldlM_mergeLine {es : List (UWord × Counts)} (h : LineMap n m)
    (hes : ∀ b ∈ es, b.1 < 2 ^ 64 ∧ IsVec n b.2) :
    ∃ m', es.foldlM mergeLine m = .ok m' ∧ LineMap n m'
      ∧ getFM m' = es.foldl (fun f b => merge plus f (single b.1 b.2)) (getFM m) := by
  induction es generalizing m with
  | nil => exact ⟨m, rfl, h, rfl⟩
  | cons b es ih =>
    obtain ⟨⟨hl, hc⟩, hes⟩ := forall_mem_cons.mp hes
    obtain ⟨m₁, hadd, h₁, hget₁⟩ := addCountsToMap_spec h hl hc
    obtain ⟨m₂, hfold, h₂, hget₂⟩ := ih h₁ hes
    refine ⟨m₂, ?_, h₂, ?_⟩
    · rw [foldlM_cons, mergeLine_eq, hadd, ok_bind, hfold]
    · rw [hget₂, hget₁, foldl_cons]

/-! ## Two-level maps -/

/-- What a line of a file can hold. -/
structure IsLine (t : Text) : Prop where
  newline : '\n' ∉ t
  nul : '\x00' ∉ t

/-- One entry of a two-level map of vectors of `n` counts. -/
structure Section (n : ℕ) (ff : FileFn) (m : InnerMap) : Prop where
  fiName : IsLine ff.fiName
  fnName : IsLine ff.fnName
  lineMap : LineMap n m
  nonempty : ∃ l c, getFM m l = some c

/-- A two-level map of vectors of `n` counts. -/
structure TwoLevel (n : ℕ) (outer : OuterMap) : Prop where
  valid : Valid cmpFileFn outer
  sections : ∀ ff m, getFM outer ff = some m → Section n ff m

/-- The function a two-level map stands for. -/
def view (outer : OuterMap) : FileFn → Option (UWord → Option Counts) :=
  fun ff => (getFM outer ff).map getFM

theorem twoLevel_newFM (n : ℕ) : TwoLevel n (WordFM.newFM cmpFileFn) := ⟨valid_newFM _, nofun⟩

theorem view_eq_none_iff {outer : OuterMap} {ff : FileFn} :
    view outer ff = none ↔ getFM outer ff = none := Option.map_eq_none_iff

variable {outer outer' : OuterMap} {ff : FileFn} {es : List (FileFn × InnerMap)}

/-- A function's lines are bound anew, or added. -/
theorem TwoLevel.of_update {g h : UWord → Option Counts} (ht : TwoLevel n outer)
    (hv : Valid cmpFileFn outer') (hget : getFM outer' = Function.update (getFM outer) ff (some m'))
    (hm' : Section n ff m') (hg : getFM m' = g)
    (hmerge : Option.merge (merge plus) (view outer ff) (some h) = some g) :
    TwoLevel n outer' ∧ view outer' = merge (merge plus) (view outer) (single ff h) := by
  refine ⟨⟨hv, fun ff' m hm => ?_⟩, ?_⟩
  · rw [hget, update_apply] at hm
    split_ifs at hm with hff
    · cases hm
      exact hff ▸ hm'
    · exact ht.sections ff' m hm
  · rw [← update_eq_merge hmerge, ← hg]
    funext ff'
    rw [view, hget, update_apply, update_apply]
    split_ifs <;> rfl

theorem nonempty_of_merge {f g : UWord → Option Counts}
    (h : getFM m' = merge plus f g) (hg : ∃ l c, g l = some c) : ∃ l c, getFM m' l = some c := by
  obtain ⟨l, c, hc⟩ := hg
  refine ⟨l, ?_⟩
  simp only [h, merge, hc]
  cases f l with
  | none => exact ⟨c, rfl⟩
  | some d => exact ⟨plus d c, rfl⟩

/-- **A line of counts is merged in.** -/
theorem addToOuterMap_spec (ht : TwoLevel n outer) (hfi : IsLine ff.fiName) (hfn : IsLine ff.fnName)
    (hl : l < 2 ^ 64) (hc : IsVec n c) :
    ∃ outer', addToOuterMap outer ff l c = .ok outer' ∧ TwoLevel n outer'
      ∧ view outer' = merge (merge plus) (view outer) (single ff (single l c)) := by
  rw [addToOuterMap]
  cases hg : getFM outer ff with
  | some m =>
    obtain ⟨m', hadd, hm', hget'⟩ := addCountsToMap_spec (ht.sections ff m hg).lineMap hl hc
    obtain ⟨hv, hget⟩ := ht.valid.assign hg m'
    refine ⟨_, by simp only [hadd, ok_bind, pure_eq_ok], ht.of_update hv hget
      ⟨hfi, hfn, hm', nonempty_of_merge hget' ⟨l, c, single_self l c⟩⟩ hget' ?_⟩
    simp [view, hg]
  | none =>
    obtain ⟨m', hadd, hm', hget'⟩ := addCountsToMap_spec (lineMap_newFM n) hl hc
    obtain ⟨outer₁, hadd₁, hv₁, hget₁⟩ := ht.valid.addFM ff (newFM cmpUnboxedUWord)
    obtain ⟨hv, hget⟩ := hv₁.assign (hget₁ ▸ update_self ..) m'
    rw [hget₁, update_idem] at hget
    refine ⟨_, by simp only [hadd, hadd₁, ok_bind, pure_eq_ok], ht.of_update hv hget
      ⟨hfi, hfn, hm', nonempty_of_merge hget' ⟨l, c, single_self l c⟩⟩ hget' ?_⟩
    have hnew : merge plus (getFM (newFM cmpUnboxedUWord)) (single l c) = single l c :=
      none_merge plus _
    simp [view, hg, hnew]

theorem avlDopy_eq (i : ℕ) (t : AvlTree (FMNode Unit UWord Counts)) :
    (WordFM.avlDopy none none (fun _ => ()) i t).1 = t := by
  induction t generalizing i with
  | nil => rfl
  | node l x b r ihl ihr => simp [avlDopy, ihl, ihr]

/-- A copy of a map is equal to it. -/
theorem dopyInnerMap_eq (h : LineMap n m) : dopyInnerMap m = .ok m := by
  simp only [dopyInnerMap, dopyFM, h.valid.stack_eq, length_nil, if_true, avlDopy_eq,
    call]
  rw [← h.valid.stack_eq]

/-- The lines of a map are vectors of counts. -/
theorem LineMap.entries (h : LineMap n m) : ∀ b ∈ entries m, b.1 < 2 ^ 64 ∧ IsVec n b.2 := by
  intro b hb
  have hb' := h.valid.getFM_eq_some_iff.mpr hb
  exact ⟨h.line_lt _ _ hb', h.isVec _ _ hb'⟩

/-- **A function of another profile is merged in, unless its lines are to be walked and do not fit
the stack…** -/
theorem mergeFileFn_spec (ht : TwoLevel n outer) (hm : Section n ff m)
    (hdepth : getFM outer ff ≠ none → m.root.leftDepth ≤ stackMax) :
    ∃ outer', mergeFileFn outer (ff, m) = .ok outer' ∧ TwoLevel n outer'
      ∧ view outer' = merge (merge plus) (view outer) (single ff (getFM m)) := by
  have hlists := hm.lineMap.valid.lists
  rw [mergeFileFn]
  dsimp only
  cases hg : getFM outer ff with
  | none =>
    obtain ⟨outer', hadd, hv, hget⟩ := ht.valid.addFM ff m
    refine ⟨outer', by simp only [dopyInnerMap_eq hm.lineMap, ok_bind, hadd],
      ht.of_update hv hget hm rfl ?_⟩
    simp [view, hg]
  | some m₀ =>
    obtain ⟨m', hfold, hm', hget'⟩ :=
      foldlM_mergeLine (ht.sections ff m₀ hg).lineMap hm.lineMap.entries
    rw [hlists.foldl_merge plus] at hget'
    obtain ⟨hv, hget⟩ := ht.valid.assign hg m'
    refine ⟨_, by simp only [forFM_eq (hdepth (by simp [hg])), hfold, ok_bind, pure_eq_ok],
      ht.of_update hv hget
        ⟨hm.fiName, hm.fnName, hm', nonempty_of_merge hget' hm.nonempty⟩ hget' ?_⟩
    simp [view, hg]

/-- …in which case an assertion fails. -/
theorem mergeFileFn_cut (ht : TwoLevel n outer) (hm : Section n ff m) (hff : getFM outer ff ≠ none)
    (hdepth : stackMax < m.root.leftDepth) :
    mergeFileFn outer (ff, m) = .error (.abort .assertion) := by
  obtain ⟨m₀, hg⟩ := Option.ne_none_iff_exists'.mp hff
  obtain ⟨done, hdone, hrun⟩ := (forFM_spec m mergeLine m₀).2 hdepth
  have hes : ∀ b ∈ done, b.1 < 2 ^ 64 ∧ IsVec n b.2 :=
    fun b hb => hm.lineMap.entries b (hdone.subset hb)
  obtain ⟨m', hfold, -⟩ := foldlM_mergeLine (ht.sections ff m₀ hg).lineMap hes
  rw [mergeFileFn]
  simp only [hg, hrun, hfold, ok_bind, error_bind]

/-- The functions of `es` that the map already has can be walked. -/
def Walkable (outer : OuterMap) (es : List (FileFn × InnerMap)) : Prop :=
  ∀ b ∈ es, getFM outer b.1 ≠ none → b.2.root.leftDepth ≤ stackMax

/-- Merging in one function leaves it open whether the others can be walked. -/
theorem walkable_merge {h : UWord → Option Counts}
    (hview : view outer' = merge (merge plus) (view outer) (single ff h))
    (hff : ff ∉ es.map Prod.fst) : Walkable outer' es ↔ Walkable outer es := by
  refine forall₂_congr fun b hb => ?_
  have hne : b.1 ≠ ff := fun heq => hff (heq ▸ mem_map_of_mem hb)
  have hsame : view outer' b.1 = view outer b.1 := by
    simp [hview, merge, single_of_ne hne]
  rw [ne_eq, ne_eq, ← view_eq_none_iff, ← view_eq_none_iff, hsame]

/-- **Functions that can be walked are merged in one after the other**, up to one that cannot. -/
theorem foldlM_mergeFileFn (ht : TwoLevel n outer)
    (hes : ∀ b ∈ es, Section n b.1 b.2) (hnodup : (es.map Prod.fst).Nodup) :
    (Walkable outer es → ∃ outer', es.foldlM mergeFileFn outer = .ok outer' ∧ TwoLevel n outer'
      ∧ view outer' = (es.map fun b => (b.1, getFM b.2)).foldl
        (fun f b => merge (merge plus) f (single b.1 b.2)) (view outer))
    ∧ (¬ Walkable outer es → es.foldlM mergeFileFn outer = .error (.abort .assertion)) := by
  induction es generalizing outer with
  | nil => exact ⟨fun _ => ⟨outer, rfl, ht, rfl⟩, fun h => absurd nofun h⟩
  | cons b es ih =>
    obtain ⟨hb, hes⟩ := forall_mem_cons.mp hes
    obtain ⟨hnb, hnodup⟩ := nodup_cons.mp hnodup
    rw [foldlM_cons, Walkable, forall_mem_cons]
    by_cases hwb : getFM outer b.1 ≠ none → b.2.root.leftDepth ≤ stackMax
    · obtain ⟨outer₁, hok, ht₁, hview₁⟩ := mergeFileFn_spec ht hb hwb
      have hrest := ih ht₁ hes hnodup
      rw [walkable_merge hview₁ hnb, hview₁] at hrest
      rw [hok, ok_bind, and_iff_right hwb]
      exact hrest
    · obtain ⟨hff, hdepth⟩ := Classical.not_imp.mp hwb
      rw [mergeFileFn_cut ht hb hff (not_le.mp hdepth), error_bind]
      exact ⟨fun h => absurd h.1 hwb, fun _ => rfl⟩

/-- A map can be merged into another: its loop and the loops over its functions fit the stack. -/
structure Mergeable (dst src : OuterMap) : Prop where
  outer : src.root.leftDepth ≤ stackMax
  inner : Walkable dst (entries src)

/-- **The loop of a merge merges the maps…** -/
theorem forFM_mergeFileFn {dst src : OuterMap} (hd : TwoLevel n dst) (hs : TwoLevel n src)
    (h : Mergeable dst src) :
    ∃ outer', forFM src mergeFileFn dst = .ok outer' ∧ TwoLevel n outer'
      ∧ view outer' = merge (merge plus) (view dst) (view src) := by
  have hlists := hs.valid.lists
  obtain ⟨outer', hfold, ht, hview⟩ := (foldlM_mergeFileFn hd
    (fun b hb => hs.sections _ _ (hs.valid.getFM_eq_some_iff.mpr hb)) hlists.nodup_keys).1 h.inner
  refine ⟨outer', (forFM_eq h.outer dst).trans hfold, ht, ?_⟩
  rw [hview, (hlists.map_val getFM).foldl_merge]
  rfl

/-- …or fails an assertion. -/
theorem forFM_mergeFileFn_cut {dst src : OuterMap} (hd : TwoLevel n dst) (hs : TwoLevel n src)
    (h : ¬ Mergeable dst src) : forFM src mergeFileFn dst = .error (.abort .assertion) := by
  have hlists := hs.valid.lists
  have hsec : ∀ b ∈ entries src, Section n b.1 b.2 :=
    fun b hb => hs.sections _ _ (hs.valid.getFM_eq_some_iff.mpr hb)
  by_cases hdepth : src.root.leftDepth ≤ stackMax
  · rw [forFM_eq hdepth]
    exact (foldlM_mergeFileFn hd hsec hlists.nodup_keys).2 fun hw => h ⟨hdepth, hw⟩
  · obtain ⟨done, hdone, hrun⟩ := (forFM_spec src mergeFileFn dst).2 (not_le.mp hdepth)
    have hsec' : ∀ b ∈ done, Section n b.1 b.2 := fun b hb => hsec b (hdone.subset hb)
    have hnodup : (done.map Prod.fst).Nodup :=
      hlists.nodup_keys.sublist (hdone.sublist.map Prod.fst)
    rw [hrun]
    by_cases hw : Walkable dst done
    · obtain ⟨outer', hfold, -⟩ := (foldlM_mergeFileFn hd hsec' hnodup).1 hw
      rw [hfold, ok_bind]
    · rw [(foldlM_mergeFileFn hd hsec' hnodup).2 hw, error_bind]

/-! ## Places -/

/-- A file and function with a line. -/
abbrev Place := FileFn × UWord

/-- The counts at a place. -/
def flat (v : FileFn → Option (UWord → Option Counts)) : Place → Option Counts :=
  fun p => (v p.1).bind (· p.2)

/-- The counts of a two-level map with their places, in order. -/
def cells (outer : OuterMap) : List (Place × Counts) :=
  (entries outer).flatMap fun b => (entries b.2).map fun c => ((b.1, c.1), c.2)

/-- The entries of a two-level map and of its maps. -/
def table (outer : OuterMap) : List (FileFn × List (UWord × Counts)) :=
  (entries outer).map fun b => (b.1, entries b.2)

/-- The sum of all counts. -/
def total (outer : OuterMap) : ℕ → ZMod (2 ^ 64) := ((cells outer).map fun b => vec b.2).sum

theorem flat_merge (f g : FileFn → Option (UWord → Option Counts)) :
    flat (merge (merge plus) f g) = merge plus (flat f) (flat g) := by
  funext p
  simp only [flat, merge]
  cases f p.1 <;> cases g p.1 <;> simp [merge]

theorem flat_single (ff : FileFn) (l : UWord) (c : Counts) :
    flat (single ff (single l c)) = single (ff, l) c := by
  funext p
  by_cases h₁ : p.1 = ff <;> by_cases h₂ : p.2 = l <;> simp [flat, single, h₁, h₂, Prod.ext_iff]

section

variable (h : TwoLevel n outer)
include h

theorem TwoLevel.lists : Lists (flat (view outer)) (cells outer) := by
  have hflat : flat (view outer) = fun p => (getFM outer p.1).bind (getFM · p.2) := by
    funext p
    simp [flat, view, Option.bind_map]
  rw [hflat]
  exact h.valid.lists.flatten fun ff m hm => (h.sections ff m hm).lineMap.valid.lists

theorem TwoLevel.isVec {p : Place} (hp : flat (view outer) p = some c) : IsVec n c := by
  obtain ⟨f, hf, hc⟩ := Option.bind_eq_some_iff.mp hp
  obtain ⟨m, hm, rfl⟩ := Option.map_eq_some_iff.mp hf
  exact (h.sections _ m hm).lineMap.isVec _ _ hc

/-- A merge adds up the totals. -/
theorem TwoLevel.total_merge {g : Place → Option Counts} {gs : List (Place × Counts)}
    (h' : TwoLevel n outer') (hg : Lists g gs)
    (hgs : ∀ p c, g p = some c → IsVec n c)
    (hview : flat (view outer') = merge plus (flat (view outer)) g) :
    total outer' = total outer + (gs.map fun b => vec b.2).sum := by
  refine h.lists.sum_merge hg (hview ▸ h'.lists) fun p a b ha hb => vec_plus ?_
  rw [(h.isVec ha).length_eq, (hgs p b hb).length_eq]

/-- Two-level maps with the same counts everywhere have the same functions… -/
theorem TwoLevel.view_congr {n' : ℕ} (h' : TwoLevel n' outer')
    (heq : flat (view outer) = flat (view outer')) : view outer = view outer' := by
  -- A function without lines would show in one view only.
  have hnone : ∀ {k : ℕ} {o o' : OuterMap}, TwoLevel k o' → flat (view o) = flat (view o') →
      ∀ ff, view o ff = none → view o' ff = none := by
    intro k o o' ho' heq ff hff
    rw [view_eq_none_iff, Option.eq_none_iff_forall_ne_some]
    intro m hm
    obtain ⟨l, c, hlc⟩ := (ho'.sections ff m hm).nonempty
    have hp := congrFun heq (ff, l)
    have hff' : view o' ff = some (getFM m) := by rw [view, hm, Option.map_some]
    simp [flat, hff, hff', hlc] at hp
  funext ff
  cases hf : view outer ff with
  | none => exact (hnone h' heq ff hf).symm
  | some f =>
    cases hf' : view outer' ff with
    | none => exact absurd (hnone h heq.symm ff hf') (by simp [hf])
    | some f' =>
      refine congrArg some (funext fun l => ?_)
      simpa [flat, hf, hf'] using congrFun heq (ff, l)

/-- …and the same entries. -/
theorem TwoLevel.table_congr {n' : ℕ} (h' : TwoLevel n' outer')
    (heq : flat (view outer) = flat (view outer')) : table outer = table outer' := by
  have hord : ∀ {o : OuterMap}, Valid cmpFileFn o →
      SortedList.Ordered (keyOrd cmpFileFn) Prod.fst (table o) := by
    intro o ho
    rw [iff_keys, table, map_map]
    exact iff_keys.mp ho.entries_ordered
  have hlists := h.valid.lists.map_val entries
  have hfun : (fun ff => (getFM outer ff).map entries) = fun ff => (getFM outer' ff).map entries := by
    funext ff
    have hff := congrFun (h.view_congr h' heq) ff
    rw [view, view] at hff
    cases hm : getFM outer ff with
    | none =>
      rw [hm, Option.map_none, eq_comm, Option.map_eq_none_iff] at hff
      rw [hff]
    | some m =>
      rw [hm, Option.map_some, eq_comm, Option.map_eq_some_iff] at hff
      obtain ⟨m', hm', hmm⟩ := hff
      rw [hm']
      exact congrArg some ((h.sections ff m hm).lineMap.valid.entries_congr
        (h'.sections ff m' hm').lineMap.valid hmm.symm)
  exact eq_of_lists (hord h.valid) (hord h'.valid) hlists (hfun ▸ h'.valid.lists.map_val entries)

end

end Valgrind.CgMerge
