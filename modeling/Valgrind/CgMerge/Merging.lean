import Valgrind.CgMerge.Counts
import Valgrind.CgMerge.Parsing

/-!
# CgMerge/Merging — merging profiles adds up their counts

`Profile` is what holds of every profile that `cg_merge` handles: parsing establishes it, merging
keeps it.  At each place a merge adds the counts of the two profiles, so the counts of a merge of
many are the sums over all of them, however they are ordered and grouped — provided that the maps
that are walked fit the iterator stack: `merging_adds`.
-/

namespace Valgrind.CgMerge

open List Except
open FiniteMap (Lists merge single)

variable {cpf cpf' : CacheProfFile} {str ev : Text} {c : Counts}

/-! ## Profiles -/

/-- The maps and the summary of a profile, at any time. -/
structure Sound (cpf : CacheProfFile) : Prop where
  twoLevel : TwoLevel cpf.nEvents cpf.outerMap
  summary_isVec : IsVec cpf.nEvents cpf.summary
  summary_eq : vec cpf.summary = total cpf.outerMap

/-- A profile as `cg_merge` handles it. -/
structure Profile (cpf : CacheProfFile) : Prop extends Sound cpf where
  desc_ne : cpf.descLines ≠ []
  desc : ∀ l ∈ cpf.descLines, streqn l "desc: " ∧ IsLine l
  cmd : streqn cpf.cmdLine "cmd: " ∧ IsLine cpf.cmdLine
  events : streqn cpf.eventsLine "events: " ∧ IsLine cpf.eventsLine
  nEvents_eq : cpf.nEvents = countEvents (cpf.eventsLine.drop 6)
  nEvents_pos : 0 < cpf.nEvents

/-- The counts of a profile at a place. -/
def countsAt (cpf : CacheProfFile) : Place → Option Counts := flat (view cpf.outerMap)

/-! ## Reading counts -/

theorem parseULong_lt {rest : Text} {x : ℕ} (h : parseULong str = (some x, rest)) : x < 2 ^ 64 := by
  rw [parseULong] at h
  split_ifs at h
  · rw [← Option.some.inj (Prod.mk.inj h).1]
    have hmod := Text.foldl_digits_mod (2 ^ 64) ((str.dropWhile isspace).takeWhile Char.isDigit) 0
    rw [Nat.zero_mod] at hmod
    rw [hmod]
    exact Nat.mod_lt _ (by norm_num)
  · cases (Prod.mk.inj h).1

theorem parseCounts_lt (fuel : ℕ) (str : Text) : ∀ x ∈ (parseCounts fuel str).1, x < 2 ^ 64 := by
  induction fuel generalizing str with
  | zero => exact fun x hx => absurd hx not_mem_nil
  | succ fuel ih =>
    rw [parseCounts]
    rcases hp : parseULong str with ⟨_ | x, ptr⟩
    · exact fun x hx => absurd hx not_mem_nil
    · exact forall_mem_cons.mpr ⟨parseULong_lt hp, ih ptr⟩

/-- A call ends in a result that meets `P`, or in a report: not in a failed assertion, and not at a
NULL pointer. -/
def Ends {α : Type} (P : α → Prop) : Except Exit α → Prop
  | .ok a => P a
  | .error (.abort _) => False
  | .error _ => True

theorem Ends.bind {α β : Type} {P : α → Prop} {Q : β → Prop} {x : Except Exit α}
    {f : α → Except Exit β} (hx : Ends P x) (hf : ∀ a, P a → Ends Q (f a)) : Ends Q (x >>= f) := by
  match x with
  | .ok a => exact hf a hx
  | .error (.parseError _) | .error (.barf _) => trivial

theorem parseCountsLine_ends (str : Text) :
    Ends (fun ns => ∀ x ∈ ns, x < 2 ^ 64) (parseCountsLine str) := by
  rw [parseCountsLine]
  dsimp only
  split_ifs
  · trivial
  · exact parseCounts_lt _ str

theorem splitUpCountsLine_ok {l : UWord} :
    splitUpCountsLine str = .ok (l, c) ↔ parseCountsLine str = .ok (l :: c) ∧ c ≠ [] := by
  rw [splitUpCountsLine]
  cases parseCountsLine str with
  | error e => simp
  | ok ns =>
    match ns with
    | [] => simp
    | [x] =>
      simp only [ok_bind, reduceCtorEq, ok.injEq, List.cons.injEq, false_iff, not_and, not_not]
      exact fun h => h.2.symm
    | x :: y :: ns =>
      simp only [ok_bind, pure_eq_ok, ok.injEq, Prod.mk.injEq, List.cons.injEq]
      exact ⟨fun h => ⟨h, h.2 ▸ cons_ne_nil y ns⟩, And.left⟩

theorem splitUpSummaryLine_ok :
    splitUpSummaryLine str = .ok c ↔ parseCountsLine str = .ok c ∧ c ≠ [] := by
  rw [splitUpSummaryLine]
  cases parseCountsLine str with
  | error e => simp
  | ok ns =>
    match ns with
    | [] =>
      simp only [ok_bind, reduceCtorEq, ok.injEq, false_iff, not_and, not_not]
      exact Eq.symm
    | x :: ns =>
      simp only [ok_bind, pure_eq_ok, ok.injEq]
      exact ⟨fun h => ⟨h, h ▸ cons_ne_nil x ns⟩, And.left⟩

/-! ## Parsing establishes what holds of profiles -/

theorem sound_emptyProfile (descLines : List Text) (cmdLine eventsLine : Text) :
    Sound (emptyProfile descLines cmdLine eventsLine) :=
  ⟨twoLevel_newFM _, isVec_zero _, vec_zero _⟩

/-- **A line of counts is merged in and added to the summary.** -/
theorem handleCounts_spec {fi fn : Text} {l : UWord} (h : Sound cpf) (hfi : IsLine fi)
    (hfn : IsLine fn) (hstr : splitUpCountsLine str = .ok (l, c)) (hlen : c.length = cpf.nEvents) :
    ∃ outer, handleCounts cpf fi fn str
        = .ok { cpf with outerMap := outer, summary := plus cpf.summary c }
      ∧ Sound { cpf with outerMap := outer, summary := plus cpf.summary c }
      ∧ flat (view outer) = merge plus (countsAt cpf) (single (⟨fi, fn⟩, l) c) := by
  have hends := parseCountsLine_ends str
  rw [(splitUpCountsLine_ok.mp hstr).1] at hends
  obtain ⟨hl, hc⟩ := forall_mem_cons.mp hends
  have hvec : IsVec cpf.nEvents c := ⟨hlen, hc⟩
  have hsum := h.summary_isVec
  have hfi' : IsLine (⟨fi, fn⟩ : FileFn).fiName := hfi
  obtain ⟨outer, hadd, ht, hview⟩ := addToOuterMap_spec h.twoLevel hfi' hfn hl hvec
  have hflat : flat (view outer) = merge plus (countsAt cpf) (single (⟨fi, fn⟩, l) c) := by
    rw [hview, flat_merge, flat_single, countsAt]
  refine ⟨outer, ?_, ⟨ht, hsum.plus hvec, ?_⟩, hflat⟩
  · simp [handleCounts, hstr, hlen, hadd, addCounts_eq (hsum.length_eq.trans hlen.symm)]
  · have hone : ∀ p d, single ((⟨fi, fn⟩ : FileFn), l) c p = some d → IsVec cpf.nEvents d := by
      intro p d hd
      rw [single] at hd
      split_ifs at hd
      exact Option.some.inj hd ▸ hvec
    have htotal := h.twoLevel.total_merge ht (Lists.single _ c) hone hflat
    rw [vec_plus (hsum.length_eq.trans hlen.symm), h.summary_eq, htotal]
    simp

/-- A line changes the maps and the summary only. -/
theorem handleCounts_ends {fi fn : Text} (h : Sound cpf) (hfi : IsLine fi) (hfn : IsLine fn)
    (str : Text) :
    Ends (fun cpf' => Sound cpf' ∧ cpf' = { cpf with
      outerMap := cpf'.outerMap, summary := cpf'.summary }) (handleCounts cpf fi fn str) := by
  have hends : Ends (fun _ => True) (splitUpCountsLine str) :=
    (parseCountsLine_ends str).bind fun ns _ => by split <;> trivial
  cases hstr : splitUpCountsLine str with
  | error e =>
    rw [hstr] at hends
    rw [handleCounts, hstr]
    cases e <;> exact hends
  | ok p =>
    by_cases hlen : p.2.length = cpf.nEvents
    · obtain ⟨outer, hok, hs, -⟩ := handleCounts_spec h hfi hfn hstr hlen
      rw [hok]
      exact ⟨hs, rfl⟩
    · simp only [handleCounts, hstr, ok_bind, ne_eq, hlen, not_false_eq_true, if_true]
      trivial

theorem IsLine.drop {t : Text} (h : IsLine t) (k : ℕ) : IsLine (t.drop k) :=
  ⟨fun hm => h.newline (mem_of_mem_drop hm), fun hm => h.nul (mem_of_mem_drop hm)⟩

/-- So do the data lines. -/
theorem parseData_ends {ls : List Text} {currFl currFn : Text} (h : Sound cpf)
    (hfl : IsLine currFl) (hfn : IsLine currFn) (hls : ∀ l ∈ ls, IsLine l) :
    Ends (fun r => Sound r.1 ∧ r.1 = { cpf with
      outerMap := r.1.outerMap, summary := r.1.summary }) (parseData currFl currFn cpf ls) := by
  induction ls generalizing currFl currFn cpf with
  | nil => trivial
  | cons l ls ih =>
    obtain ⟨hl, hls⟩ := forall_mem_cons.mp hls
    simp only [parseData]
    split_ifs
    · refine (handleCounts_ends h hfl hfn l).bind fun cpf₁ hcpf₁ => ?_
      rw [hcpf₁.2]
      exact ih (hcpf₁.2 ▸ hcpf₁.1) hfl hfn hls
    · exact ih h hfl (hl.drop 3) hls
    · exact ih h (hl.drop 3) hfn hls
    · exact ⟨h, rfl⟩
    · trivial

theorem isLine_of_mem_readlines {s l : Text} (h : l ∈ readlines s) : IsLine l := by
  obtain ⟨t, ht, rfl⟩ := mem_map.mp h
  refine ⟨fun hm => Text.notMem_of_mem_lines ht ((takeWhile_sublist _).subset hm), fun hm => ?_⟩
  have := mem_takeWhile_imp hm
  simp at this

theorem isLine_unknown : IsLine unknown := ⟨by decide, by decide⟩

/-- **What is read is a profile.** -/
theorem profile_of_parse {s : Text} (h : parseCacheProfFile s = .ok cpf) : Profile cpf := by
  obtain ⟨desc, cmd, events, data, summary, hlay⟩ := Layout.of_ok h
  have hlines : ∀ l ∈ desc ++ cmd :: events :: (data ++ [summary]), IsLine l :=
    fun l hl => isLine_of_mem_readlines (hlay.lines_eq ▸ hl)
  have hends := parseData_ends (sound_emptyProfile desc cmd events) isLine_unknown isLine_unknown
    fun l (hl : l ∈ data ++ [summary]) => hlines l (by simp [hl])
  rw [hlay.parsed] at hends
  obtain ⟨hsound, hcpf⟩ := hends
  dsimp only at hcpf
  have hpos : 0 < cpf.nEvents := by
    rw [← hlay.counts_length]
    exact length_pos_iff.mpr (splitUpSummaryLine_ok.mp hlay.counts).2
  have hdesc : cpf.descLines = desc := by rw [hcpf]; rfl
  have hcmd : cpf.cmdLine = cmd := by rw [hcpf]; rfl
  have hevents : cpf.eventsLine = events := by rw [hcpf]; rfl
  have hn : cpf.nEvents = countEvents (events.drop 6) := by rw [hcpf]; rfl
  refine ⟨hsound, ?_, ?_, ?_, ?_, ?_, hpos⟩
  · exact hdesc ▸ hlay.desc_ne
  · exact hdesc ▸ fun l hl => ⟨hlay.desc l hl, hlines l (by simp [hl])⟩
  · exact hcmd ▸ ⟨hlay.cmd, hlines cmd (by simp)⟩
  · exact hevents ▸ ⟨hlay.events, hlines events (by simp)⟩
  · rw [hn, hevents]

/-! ## Merging keeps it -/

section Merge

variable {dst src : CacheProfFile}

section

variable (hd : Profile dst) (hs : Profile src) (hev : dst.eventsLine = src.eventsLine)
include hd hs hev

/-- Profiles with the same events line have the same number of events. -/
theorem Profile.nEvents_congr : src.nEvents = dst.nEvents := by
  rw [hd.nEvents_eq, hs.nEvents_eq, hev]

/-- **Merging merges the maps and adds the summaries, if the maps can be walked…** -/
theorem mergeCacheProfInfo_spec (h : Mergeable dst.outerMap src.outerMap) :
    ∃ outer, mergeCacheProfInfo dst src
        = .ok { dst with outerMap := outer, summary := plus dst.summary src.summary }
      ∧ Profile { dst with outerMap := outer, summary := plus dst.summary src.summary }
      ∧ view outer = merge (merge plus) (view dst.outerMap) (view src.outerMap) := by
  have hn := hd.nEvents_congr hs hev
  have hsrc : TwoLevel dst.nEvents src.outerMap := hn ▸ hs.twoLevel
  have hvec : IsVec dst.nEvents src.summary := hn ▸ hs.summary_isVec
  have hlen : dst.summary.length = src.summary.length :=
    hd.summary_isVec.length_eq.trans hvec.length_eq.symm
  obtain ⟨outer, hrun, ht, hview⟩ := forFM_mergeFileFn hd.twoLevel hsrc h
  refine ⟨outer, ?_, ?_, hview⟩
  · simp [mergeCacheProfInfo, hev, hrun, addCounts_eq hlen]
  · refine { hd with twoLevel := ht, summary_isVec := hd.summary_isVec.plus hvec, summary_eq := ?_ }
    have htotal := hd.twoLevel.total_merge ht hsrc.lists (fun _ _ => hsrc.isVec)
      (by rw [hview, flat_merge])
    rw [vec_plus hlen, hd.summary_eq, hs.summary_eq, htotal]
    rfl

/-- …and else fails an assertion. -/
theorem mergeCacheProfInfo_cut (h : ¬ Mergeable dst.outerMap src.outerMap) :
    mergeCacheProfInfo dst src = .error (.abort .assertion) := by
  have hsrc : TwoLevel dst.nEvents src.outerMap := hd.nEvents_congr hs hev ▸ hs.twoLevel
  simp [mergeCacheProfInfo, hev, forFM_mergeFileFn_cut hd.twoLevel hsrc h]

end

theorem mergeCacheProfInfo_events (h : mergeCacheProfInfo dst src = .ok cpf) :
    dst.eventsLine = src.eventsLine := by
  rw [mergeCacheProfInfo] at h
  split_ifs at h with hev
  exact not_not.mp hev

end Merge

/-! ## Merging many profiles -/

/-- How profiles are merged: `merge dst src` merges the second into the first. -/
inductive Merging where
  | file (cpf : CacheProfFile)
  | merge (dst src : Merging)

namespace Merging

/-- The merged profile. -/
def eval : Merging → Except Exit CacheProfFile
  | file cpf => .ok cpf
  | merge dst src => do mergeCacheProfInfo (← dst.eval) (← src.eval)

/-- The profiles that are merged. -/
def profiles : Merging → List CacheProfFile
  | file cpf => [cpf]
  | merge dst src => dst.profiles ++ src.profiles

/-- Before every merge, the maps that it walks fit the iterator stack. -/
def Fits : Merging → Prop
  | file _ => True
  | merge dst src => dst.Fits ∧ src.Fits ∧ ∀ d s, dst.eval = .ok d → src.eval = .ok s →
    Mergeable d.outerMap s.outerMap

/-- All profiles have been read from files. -/
def Parsed (T : Merging) : Prop := ∀ cpf ∈ T.profiles, ∃ s, parseCacheProfFile s = .ok cpf

/-- All profiles have the given events line. -/
def HasEvents (T : Merging) (ev : Text) : Prop := ∀ cpf ∈ T.profiles, cpf.eventsLine = ev

variable {T dst src : Merging} {cpf : CacheProfFile}

theorem eval_merge (h : (merge dst src).eval = .ok cpf) :
    ∃ d s, dst.eval = .ok d ∧ src.eval = .ok s ∧ mergeCacheProfInfo d s = .ok cpf := by
  obtain ⟨d, hd, h⟩ := bind_eq_ok.mp h
  obtain ⟨s, hs, h⟩ := bind_eq_ok.mp h
  exact ⟨d, s, hd, hs, h⟩

/-- **Every merge is a profile.** -/
theorem profile_of_eval (hT : T.Parsed) (h : T.eval = .ok cpf) : Profile cpf := by
  induction T generalizing cpf with
  | file c =>
    obtain ⟨s, hs⟩ := hT c (mem_singleton_self c)
    exact ok.inj h ▸ profile_of_parse hs
  | merge dst src ihd ihs =>
    obtain ⟨d, s, hd, hs, hmerge⟩ := eval_merge h
    obtain ⟨hTd, hTs⟩ := forall_mem_append.mp hT
    have hd' := ihd hTd hd
    have hs' := ihs hTs hs
    have hev := mergeCacheProfInfo_events hmerge
    by_cases hm : Mergeable d.outerMap s.outerMap
    · obtain ⟨outer, hok, hprofile, -⟩ := mergeCacheProfInfo_spec hd' hs' hev hm
      exact ok.inj (hok.symm.trans hmerge) ▸ hprofile
    · rw [mergeCacheProfInfo_cut hd' hs' hev hm] at hmerge
      cases hmerge

end Merging

/-- The sum of the vectors that are there. -/
def sumCounts (cs : List (Option Counts)) : Option Counts := cs.foldr (Option.merge plus) none

theorem sumCounts_append (as bs : List (Option Counts)) :
    sumCounts (as ++ bs) = Option.merge plus (sumCounts as) (sumCounts bs) := by
  induction as with
  | nil => simp [sumCounts]
  | cons a as ih =>
    rw [sumCounts, cons_append, foldr_cons, ← sumCounts, ih]
    have hassoc : Std.Associative (Option.merge plus) := inferInstance
    exact (hassoc.assoc ..).symm

theorem sumCounts_perm {as bs : List (Option Counts)} (h : as.Perm bs) :
    sumCounts as = sumCounts bs := h.foldr_eq none

/-- A profile is the sum of others: at every place its counts are the sum of their counts there, it
has no functions that none of them has, and its summary is the sum of the summaries. -/
structure Adds (profiles : List CacheProfFile) (cpf : CacheProfFile) : Prop where
  counts : ∀ p, countsAt cpf p = sumCounts (profiles.map (countsAt · p))
  functions : ∀ ff, getFM cpf.outerMap ff = none ↔ ∀ c ∈ profiles, getFM c.outerMap ff = none
  summary : some cpf.summary = sumCounts (profiles.map fun c => some c.summary)

theorem adds_single (cpf : CacheProfFile) : Adds [cpf] cpf where
  counts p := by simp [sumCounts]
  functions ff := by simp
  summary := by simp [sumCounts]

/-- The sum of two sums. -/
theorem Adds.merge {ds ss : List CacheProfFile} {d s : CacheProfFile} (hd : Adds ds d)
    (hs : Adds ss s)
    (hview : view cpf.outerMap
      = FiniteMap.merge (FiniteMap.merge plus) (view d.outerMap) (view s.outerMap))
    (hsum : cpf.summary = plus d.summary s.summary) : Adds (ds ++ ss) cpf where
  counts p := by
    rw [map_append, sumCounts_append, ← hd.counts, ← hs.counts, countsAt, hview, flat_merge]
    rfl
  functions ff := by
    rw [forall_mem_append, ← hd.functions, ← hs.functions, ← view_eq_none_iff, hview,
      ← view_eq_none_iff, ← view_eq_none_iff, FiniteMap.merge]
    cases view d.outerMap ff <;> cases view s.outerMap ff <;> simp
  summary := by
    rw [map_append, sumCounts_append, ← hd.summary, ← hs.summary, hsum]
    rfl

namespace Merging

variable {T dst src : Merging}

section

variable (hT : T.Parsed) (hev : T.HasEvents ev)
include hT hev

/-- **A merge of profiles that fit the stack is their sum…** -/
theorem eval_of_fits (hfits : T.Fits) :
    ∃ cpf, T.eval = .ok cpf ∧ cpf.eventsLine = ev ∧ Adds T.profiles cpf := by
  induction T with
  | file c => exact ⟨c, rfl, hev c (mem_singleton_self c), adds_single c⟩
  | merge dst src ihd ihs =>
    obtain ⟨hfd, hfs, hstep⟩ := hfits
    obtain ⟨hTd, hTs⟩ := forall_mem_append.mp hT
    obtain ⟨hed, hes⟩ := forall_mem_append.mp hev
    obtain ⟨d, hd, hevd, haddd⟩ := ihd hTd hed hfd
    obtain ⟨s, hs, hevs, hadds⟩ := ihs hTs hes hfs
    obtain ⟨outer, hok, -, hview⟩ := mergeCacheProfInfo_spec (profile_of_eval hTd hd)
      (profile_of_eval hTs hs) (hevd.trans hevs.symm) (hstep d s hd hs)
    refine ⟨{ d with outerMap := outer, summary := plus d.summary s.summary }, ?_, hevd,
      haddd.merge hadds hview rfl⟩
    rw [eval, hd, ok_bind, hs, ok_bind, hok]

/-- …and any other fails an assertion. -/
theorem eval_of_not_fits (hfits : ¬ T.Fits) : T.eval = .error (.abort .assertion) := by
  induction T with
  | file c => exact absurd trivial hfits
  | merge dst src ihd ihs =>
    obtain ⟨hTd, hTs⟩ := forall_mem_append.mp hT
    obtain ⟨hed, hes⟩ := forall_mem_append.mp hev
    rw [eval]
    by_cases hfd : dst.Fits
    · by_cases hfs : src.Fits
      · obtain ⟨d, hd, hevd, -⟩ := eval_of_fits hTd hed hfd
        obtain ⟨s, hs, hevs, -⟩ := eval_of_fits hTs hes hfs
        have hstep : ¬ Mergeable d.outerMap s.outerMap := fun hm => hfits ⟨hfd, hfs, fun d' s' hd' hs' =>
          ok.inj (hd.symm.trans hd') ▸ ok.inj (hs.symm.trans hs') ▸ hm⟩
        rw [hd, ok_bind, hs, ok_bind]
        exact mergeCacheProfInfo_cut (profile_of_eval hTd hd) (profile_of_eval hTs hs)
          (hevd.trans hevs.symm) hstep
      · obtain ⟨d, hd, -⟩ := eval_of_fits hTd hed hfd
        rw [hd, ok_bind, ihs hTs hes hfs, error_bind]
    · rw [ihd hTd hed hfd, error_bind]

theorem adds_of_eval (h : T.eval = .ok cpf) : Adds T.profiles cpf := by
  by_cases hfits : T.Fits
  · obtain ⟨c, hc, -, hadds⟩ := eval_of_fits hT hev hfits
    exact ok.inj (hc.symm.trans h) ▸ hadds
  · rw [eval_of_not_fits hT hev hfits] at h
    cases h

/-- Sums of the same profiles are equal. -/
theorem eq_of_perm {T' : Merging}
    (hperm : T'.profiles.Perm T.profiles) (h : T.eval = .ok cpf) (h' : T'.eval = .ok cpf') :
    table cpf.outerMap = table cpf'.outerMap ∧ cpf.summary = cpf'.summary := by
  have hT' : T'.Parsed := fun c hc => hT c (hperm.mem_iff.mp hc)
  have hev' : T'.HasEvents ev := fun c hc => hev c (hperm.mem_iff.mp hc)
  have hadds := adds_of_eval hT hev h
  have hadds' := adds_of_eval hT' hev' h'
  constructor
  · refine (profile_of_eval hT h).twoLevel.table_congr (profile_of_eval hT' h').twoLevel ?_
    funext p
    exact (hadds.counts p).trans ((sumCounts_perm (hperm.map _)).symm.trans (hadds'.counts p).symm)
  · refine Option.some.inj ?_
    rw [hadds.summary, hadds'.summary, sumCounts_perm (hperm.map _)]

end

end Merging

/-- **Merging is pointwise addition.**  However profiles with the same events line are merged, the
result is their sum iff before each merge the maps it walks have a left depth of at most 32.  It
then depends neither on their order nor on their grouping. -/
theorem merging_adds (T : Merging) (ev : Text) (hT : T.Parsed) (hev : T.HasEvents ev) :
    ((∃ cpf, T.eval = .ok cpf ∧ Adds T.profiles cpf) ↔ T.Fits)
      ∧ ∀ (T' : Merging) (cpf cpf' : CacheProfFile), T'.profiles.Perm T.profiles →
        T.eval = .ok cpf → T'.eval = .ok cpf' →
        table cpf.outerMap = table cpf'.outerMap ∧ cpf.summary = cpf'.summary := by
  refine ⟨⟨?_, fun hfits => ?_⟩, fun T' cpf cpf' => Merging.eq_of_perm hT hev⟩
  · rintro ⟨cpf, hcpf, -⟩
    by_contra hfits
    rw [Merging.eval_of_not_fits hT hev hfits] at hcpf
    cases hcpf
  · obtain ⟨cpf, hcpf, -, hadds⟩ := Merging.eval_of_fits hT hev hfits
    exact ⟨cpf, hcpf, hadds⟩

/-- A small file. -/
def smallFile : Text :=
  "desc: a\ncmd: a\nevents: Ir\nfl=a\nfn=f\n1 2\nsummary: 2\n".toList

/-- Its profile. -/
def smallProfile : CacheProfFile where
  descLines := ["desc: a".toList]
  cmdLine := "cmd: a".toList
  eventsLine := "events: Ir".toList
  nEvents := 1
  outerMap :=
    { WordFM.newFM cmpFileFn with root := AvlTree.leaf ⟨(), ⟨"a".toList, "f".toList⟩,
      { WordFM.newFM cmpUnboxedUWord with root := AvlTree.leaf ⟨(), 1, [2]⟩ }⟩ }
  summary := [2]

theorem parse_smallFile : parseCacheProfFile smallFile = .ok smallProfile := rfl

theorem merging_adds_pair :
    ∃ cpf, (Merging.merge (.file smallProfile) (.file smallProfile)).eval = .ok cpf
      ∧ Adds [smallProfile, smallProfile] cpf := by
  have hall : ∀ c ∈ [smallProfile, smallProfile], c = smallProfile := by simp
  have hparsed : (Merging.merge (.file smallProfile) (.file smallProfile)).Parsed :=
    fun c hc => ⟨smallFile, hall c hc ▸ parse_smallFile⟩
  have hevents : (Merging.merge (.file smallProfile) (.file smallProfile)).HasEvents
      smallProfile.eventsLine := fun c hc => by rw [hall c hc]
  refine (merging_adds _ _ hparsed hevents).1.mpr ⟨trivial, trivial, ?_⟩
  rintro d s ⟨⟩ ⟨⟩
  refine ⟨by decide, fun b hb _ => ?_⟩
  rw [mem_singleton.mp hb]
  decide

end Valgrind.CgMerge
