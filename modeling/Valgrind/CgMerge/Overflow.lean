import Valgrind.CgMerge.RoundTrip
import Valgrind.Core.IterCapacity

/-!
# CgMerge/Overflow — a file whose profile cannot be walked

The lines of one function are kept in one AVL tree, in whatever shape the order of the file gives
it.  A file may build the smallest tree of left depth 33, with 9227464 lines: it is read
(`parse_deepFile`), but its profile can neither be written nor merged into one with that function
(`show_overflow`, `merge_overflow`).
-/

namespace Valgrind.CgMerge

open List WordFM AvlTree Std.ReflCmp
open SortedList (Ordered)
open FMNode (binding key)

/-- A function of a file. -/
def theFn : FileFn := ⟨"a".toList, "f".toList⟩

/-- A map of lines. -/
def linesMap (root : AvlTree (FMNode Unit UWord Counts)) : InnerMap :=
  { root, cmp := cmpUnboxedUWord, stack := [] }

/-- A profile that counts one event, in lines of one function. -/
def oneFn (root : AvlTree (FMNode Unit UWord Counts)) (sum : ℕ) : CacheProfFile where
  descLines := ["desc: a".toList]
  cmdLine := "cmd: a".toList
  eventsLine := "events: Ir".toList
  nEvents := 1
  outerMap := { root := leaf ⟨(), theFn, linesMap root⟩, cmp := cmpFileFn, stack := [] }
  summary := [sum]

/-- The file with the given lines, in this order. -/
def oneFnFile (rows : List (UWord × Counts)) : Text :=
  Text.unlines (["desc: a".toList] ++ "cmd: a".toList :: "events: Ir".toList
    :: (sectionLines (theFn, rows) ++ [summaryLine [rows.length]]))

variable {root root' : AvlTree (FMNode Unit UWord Counts)} {l : UWord} {c : Counts}
  {as : List (FMNode Unit UWord Counts)}

/-- A new line becomes a leaf. -/
theorem addCountsToMap_addLeaf (h : AvlTree.AddLeaf ⟨(), l, c⟩ root root') (hb : root.Balanced)
    (hb' : root'.Balanced) (hord : Ordered (keyOrd cmpUnboxedUWord) key root'.toList) :
    addCountsToMap (linesMap root) l c = .ok (linesMap root') := by
  obtain ⟨as, bs, hlist, hlist'⟩ := h.exists_toList
  have hvalid : Valid cmpUnboxedUWord (linesMap root) := by
    refine ⟨rfl, hb, ?_, rfl⟩
    refine hord.sublist ?_
    rw [linesMap, hlist, hlist']
    exact (sublist_cons_self _ bs).append_left as
  have hnone : getFM (linesMap root) l = none := by
    rw [Option.eq_none_iff_forall_ne_some]
    intro v hv
    obtain ⟨n, hn, hbind⟩ := mem_map.mp (hvalid.getFM_eq_some_iff.mp hv)
    rw [hlist'] at hord
    refine hord.ne_of_eq (k := l) (compare_self) n ?_ ?_
    · rw [← hlist]
      exact hn
    · rw [(Prod.mk.inj hbind).1]
      exact compare_self
  have hins := AvlCode.avlInsert_addLeaf (c := fmCode cmpUnboxedUWord) orders_fmCode
    (replaceVal c) none h hb hb' hord
  have hadd : addFM (linesMap root) l c = .ok (linesMap root') := by
    simp only [addFM, addToFM, linesMap, hins, ok_bind, call, pure_eq_ok]
  rw [addCountsToMap, hnone]
  exact hadd

/-- A counts line that makes the tree grow. -/
theorem handleCounts_addLeaf (sum : ℕ) (h : AvlTree.AddLeaf ⟨(), l, [1]⟩ root root')
    (hb : root.Balanced) (hb' : root'.Balanced)
    (hord : Ordered (keyOrd cmpUnboxedUWord) key root'.toList) (hl : l < 2 ^ 63)
    (hsum : sum + 1 < 2 ^ 64) :
    handleCounts (oneFn root sum) theFn.fiName theFn.fnName (rowLine (l, [1]))
      = .ok (oneFn root' (sum + 1)) := by
  have hsplit : splitUpCountsLine (rowLine (l, [1])) = .ok (l, [1]) :=
    splitUpCountsLine_ok.mpr ⟨parseCountsLine_rowLine hl (by simp) (by simp), by simp⟩
  have hadd := addCountsToMap_addLeaf h hb hb' hord
  have hget : getFM (oneFn root sum).outerMap theFn = some (linesMap root) := rfl
  have hassign : assign (oneFn root sum).outerMap theFn (linesMap root')
      = (oneFn root' (sum + 1)).outerMap := rfl
  have hcounts : addCounts (oneFn root sum).summary [1] = .ok [sum + 1] := by
    simpa [addCounts, oneFn] using hsum
  have hlen : ([1] : Counts).length = (oneFn root sum).nEvents := rfl
  have houter : addToOuterMap (oneFn root sum).outerMap theFn l [1]
      = .ok (oneFn root' (sum + 1)).outerMap := by
    rw [addToOuterMap, hget]
    simp only [hadd, ok_bind, pure_eq_ok, hassign]
  simp only [handleCounts, hsplit, ok_bind, hlen, ne_eq, not_true_eq_false, if_false]
  rw [show (⟨theFn.fiName, theFn.fnName⟩ : FileFn) = theFn from rfl, houter, ok_bind, hcounts]
  rfl

/-- The lines of a growing tree are read. -/
theorem parseData_grows (sum : ℕ) (rest : List Text)
    (h : AvlTree.Grows root as root')
    (hord : Ordered (keyOrd cmpUnboxedUWord) key root'.toList)
    (has : ∀ a ∈ as, a.key < 2 ^ 63 ∧ a.val = [1]) (hsum : sum + as.length < 2 ^ 64) :
    parseData theFn.fiName theFn.fnName (oneFn root sum)
        ((as.map binding).map rowLine ++ rest)
      = parseData theFn.fiName theFn.fnName (oneFn root' (sum + as.length)) rest := by
  induction h generalizing sum with
  | refl _ => rfl
  | @step r r' u a as hb ha hg ih =>
    obtain ⟨⟨⟩, l, c⟩ := a
    obtain ⟨⟨hkey, rfl⟩, has'⟩ := forall_mem_cons.mp has
    rw [length_cons] at hsum
    have hb' : r'.Balanced := by
      cases hg with
      | refl h => exact h
      | step h _ _ => exact h
    have hprint : Printable 1 (l, ([1] : Counts)) := ⟨hkey, by simp, rfl⟩
    have hhandle := handleCounts_addLeaf sum ha hb hb' (hord.sublist hg.sublist) hkey
      (by omega)
    rw [map_cons, map_cons, cons_append, parseData, binding,
      if_pos (startsDigit_rowLine hprint), hhandle, ok_bind, ih (sum + 1) hord has' (by omega),
      length_cons, add_assoc, add_comm 1]

/-- The first line creates the function. -/
theorem addToOuterMap_first (l : UWord) (c : Counts) :
    addToOuterMap (WordFM.newFM cmpFileFn) theFn l c
      = addToOuterMap (oneFn nil 0).outerMap theFn l c := by
  have hadd : addFM (newFM cmpFileFn) theFn (newFM cmpUnboxedUWord)
      = .ok (oneFn nil 0).outerMap := rfl
  have hget : getFM (oneFn nil 0).outerMap theFn = some (newFM cmpUnboxedUWord) := rfl
  rw [addToOuterMap, addToOuterMap, getFM_newFM, hget]
  simp only [hadd, ok_bind]

theorem handleCounts_first (str : Text) :
    handleCounts (emptyProfile ["desc: a".toList] "cmd: a".toList "events: Ir".toList) theFn.fiName
      theFn.fnName str = handleCounts (oneFn nil 0) theFn.fiName theFn.fnName str := by
  have hfn : (⟨theFn.fiName, theFn.fnName⟩ : FileFn) = theFn := rfl
  have hempty : emptyProfile ["desc: a".toList] "cmd: a".toList "events: Ir".toList
      = { oneFn nil 0 with outerMap := newFM cmpFileFn } := rfl
  rw [handleCounts, handleCounts, hfn, hempty]
  simp only [addToOuterMap_first]

/-- **A file that builds a tree of lines is read.** -/
theorem parse_oneFnFile (h : AvlTree.Grows nil as root)
    (hne : as ≠ []) (hord : Ordered (keyOrd cmpUnboxedUWord) key root.toList)
    (has : ∀ a ∈ as, a.key < 2 ^ 63 ∧ a.val = [1]) (hlen : as.length < 2 ^ 63) :
    parseCacheProfFile (oneFnFile (as.map binding)) = .ok (oneFn root as.length) := by
  have hprint : ∀ b ∈ as.map binding, Printable 1 b := by
    intro b hb
    obtain ⟨a, ha, rfl⟩ := mem_map.mp hb
    obtain ⟨hkey, hval⟩ := has a ha
    exact ⟨hkey, by simp [binding, hval], by simp [binding, hval]⟩
  have hgrows := parseData_grows 0 [summaryLine [as.length]] h hord has (by omega)
  have hdata : parseData unknown unknown
      (emptyProfile ["desc: a".toList] "cmd: a".toList "events: Ir".toList)
      (sectionLines (theFn, as.map binding) ++ [summaryLine [as.length]])
      = .ok (oneFn root as.length, summaryLine [as.length], []) := by
    obtain ⟨a, as', rfl⟩ := exists_cons_of_ne_nil hne
    have hfirst := startsDigit_rowLine (hprint a.binding (by simp))
    rw [zero_add, map_cons, map_cons, cons_append, parseData, if_pos hfirst] at hgrows
    change parseData theFn.fiName theFn.fnName _
      (rowLine a.binding :: ((as'.map binding).map rowLine ++ _)) = _
    rw [parseData, if_pos hfirst, handleCounts_first, hgrows]
    exact (parseData_summaryLine _ _ _ (cons_ne_nil _ _)).1
  have hlines : ∀ l ∈ ["desc: a".toList] ++ "cmd: a".toList :: "events: Ir".toList
      :: (sectionLines (theFn, as.map binding) ++ [summaryLine [as.length]]), IsLine l := by
    have hsum : IsLine (summaryLine [as.length]) := isLine_summaryLine (by simpa using hlen)
    have hrows : ∀ l ∈ (as.map binding).map rowLine, IsLine l := by
      intro l hl
      obtain ⟨b, hb, rfl⟩ := mem_map.mp hl
      exact isLine_rowLine (hprint b hb)
    intro l hl
    rw [sectionLines] at hl
    simp only [mem_append, mem_cons, not_mem_nil, or_false] at hl
    obtain rfl | rfl | rfl | (rfl | rfl | hl) | rfl := hl
    · exact ⟨by decide, by decide⟩
    · exact ⟨by decide, by decide⟩
    · exact ⟨by decide, by decide⟩
    · exact ⟨by decide, by decide⟩
    · exact ⟨by decide, by decide⟩
    · exact hrows l hl
    · exact hsum
  have hdesc : ∀ l ∈ ["desc: a".toList], streqn l "desc: " := forall_mem_singleton.mpr rfl
  refine Layout.parse ⟨?_, cons_ne_nil _ _, hdesc, rfl, rfl, ?_, hdata, ?_, rfl⟩
  · rw [oneFnFile, length_map, readlines_unlines hlines]
  · exact (parseData_summaryLine [] [] (oneFn root 0) (by simp)).2
  · exact splitUpSummaryLine_summaryLine (by simpa using hlen) (by simp)

/-! ## The deep file -/

/-- The tree of 9227464 lines with left depth 33. -/
def deepTree : AvlTree (FMNode Unit UWord Counts) :=
  (AvlTree.fibTree 33 0).map fun l => ⟨(), l, [1]⟩

theorem leftDepth_deepTree : stackMax < deepTree.leftDepth := by
  rw [deepTree, leftDepth_map, leftDepth_fibTree]
  decide

theorem toList_deepTree :
    deepTree.toList = (List.range' 0 iterLimit).map fun l => ⟨(), l, [1]⟩ := by
  have hfib : Nat.fib (33 + 2) - 1 = iterLimit := by norm_num [iterLimit]
  rw [deepTree, toList_map, toList_fibTree, hfib]

theorem mem_deepTree {a : FMNode Unit UWord Counts} (h : a ∈ deepTree.toList) :
    a.key < 2 ^ 63 ∧ a.val = [1] := by
  rw [toList_deepTree] at h
  obtain ⟨l, hl, rfl⟩ := mem_map.mp h
  have hlt := (mem_range'_1.mp hl).2
  have hlimit : iterLimit < 2 ^ 63 := by norm_num [iterLimit]
  exact ⟨(zero_add iterLimit ▸ hlt).trans hlimit, rfl⟩

/-- **The deep file is read.** -/
theorem parse_deepFile : ∃ s, parseCacheProfFile s = .ok (oneFn deepTree iterLimit) := by
  have hbal : deepTree.Balanced := (balanced_fibTree 33 0).map _
  obtain ⟨as, has⟩ := hbal.exists_grows
  have hperm : deepTree.toList.Perm as := by simpa using has.perm
  have hlen : as.length = iterLimit := by
    rw [← hperm.length_eq, toList_deepTree, length_map, length_range']
  have hord : Ordered (keyOrd cmpUnboxedUWord) key deepTree.toList := by
    rw [SortedList.Ordered.iff_keys, toList_deepTree, map_map, keyOrd_cmpUnboxedUWord]
    simpa [Function.comp_def] using
      (pairwise_lt_range' (s := 0)).imp compare_lt_iff_lt.mpr
  have hne : as ≠ [] := length_pos_iff.mp (by rw [hlen]; norm_num [iterLimit])
  refine ⟨_, hlen ▸ parse_oneFnFile has hne hord (fun a ha => mem_deepTree (hperm.mem_iff.mpr ha)) ?_⟩
  rw [hlen]
  norm_num [iterLimit]

theorem small_deepProfile (h : Profile (oneFn deepTree iterLimit)) :
    Small (oneFn deepTree iterLimit) := by
  refine Small.of_cells h (fun b hb => ?_) (by norm_num [oneFn, iterLimit])
  obtain ⟨e, he, hb⟩ := mem_flatMap.mp hb
  rw [mem_singleton.mp he] at hb
  obtain ⟨c, hc, rfl⟩ := mem_map.mp hb
  obtain ⟨a, ha, rfl⟩ := mem_map.mp hc
  obtain ⟨hkey, hval⟩ := mem_deepTree ha
  exact ⟨hkey, by simp [binding, hval]⟩

/-- **The deep profile cannot be written.** -/
theorem show_overflow : ∃ s cpf, parseCacheProfFile s = .ok cpf ∧ Small cpf
      ∧ showCacheProfFile cpf = .error (.abort .assertion) := by
  obtain ⟨s, hs⟩ := parse_deepFile
  refine ⟨s, _, hs, small_deepProfile (profile_of_parse hs), ?_⟩
  have hshow : ∀ f, showFileFn f (theFn, linesMap deepTree) = .error (.abort .assertion) := by
    intro f
    have hdeep : stackMax < (linesMap deepTree).root.leftDepth := leftDepth_deepTree
    obtain ⟨done, -, hrun⟩ := (forFM_spec _ showLine
      (f ++ "fl=".toList ++ theFn.fiName ++ ['\n'] ++ "fn=".toList ++ theFn.fnName ++ ['\n'])).2 hdeep
    rw [showFileFn, hrun, foldlM_showLine, ok_bind]
  have hentries : entries (oneFn deepTree iterLimit).outerMap = [(theFn, linesMap deepTree)] := rfl
  have hdepth : (oneFn deepTree iterLimit).outerMap.root.leftDepth ≤ stackMax := by decide
  rw [showCacheProfFile, forFM_eq hdepth, hentries, foldlM_cons, hshow, error_bind, error_bind]

/-- **The deep profile cannot be merged with itself.** -/
theorem merge_overflow : ∃ s cpf, parseCacheProfFile s = .ok cpf
      ∧ mergeCacheProfInfo cpf cpf = .error (.abort .assertion) := by
  obtain ⟨s, hs⟩ := parse_deepFile
  refine ⟨s, _, hs, mergeCacheProfInfo_cut (profile_of_parse hs) (profile_of_parse hs) rfl ?_⟩
  intro hmergeable
  have hwalk := hmergeable.inner (theFn, linesMap deepTree) (mem_singleton_self _) nofun
  exact absurd hwalk (not_le.mpr leftDepth_deepTree)

end Valgrind.CgMerge
