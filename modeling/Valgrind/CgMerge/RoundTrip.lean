import Valgrind.CgMerge.Merging

/-!
# CgMerge/RoundTrip — what `cg_merge` writes it reads back

`fileLines` are the lines of the file that `show_CacheProfFile` writes.  Numbers below 2⁶³ are
printed as numerals that `parse_ULong` reads back, so the sections of the file rebuild the two-level
map, and the summary line agrees with them.  The writer walks all maps of the profile, so all have
to fit the iterator stack: `show_parse`.
-/

namespace Valgrind.CgMerge

open FiniteMap (merge single)
open List Text Nat IsLine

variable {n : ℕ} {t last : Text} {cpf : CacheProfFile} {ps : List (Text × ℕ)} {cs : Counts}
  {p : Text × ℕ} {b : UWord × Counts}

/-! ## Lines -/

/-- A line of counts. -/
def rowLine (b : UWord × Counts) : Text := showLong b.1 ++ "   ".toList ++ showCounts b.2

/-- The lines of a function. -/
def sectionLines (b : FileFn × List (UWord × Counts)) : List Text :=
  ("fl=".toList ++ b.1.fiName) :: ("fn=".toList ++ b.1.fnName) :: b.2.map rowLine

/-- The summary line. -/
def summaryLine (c : Counts) : Text := "summary:".toList ++ c.flatMap fun n => ' ' :: showLong n

theorem summaryLine_eq (c : Counts) :
    summaryLine c = "summary:".toList ++ c.flatMap fun n => ' ' :: showLong n := rfl

/-- The lines of the file. -/
def fileLines (cpf : CacheProfFile) : List Text :=
  cpf.descLines ++ cpf.cmdLine :: cpf.eventsLine
    :: ((table cpf.outerMap).flatMap sectionLines ++ [summaryLine cpf.summary])

/-- All maps of the profile fit the iterator stack. -/
structure Showable (cpf : CacheProfFile) : Prop where
  outer : cpf.outerMap.root.leftDepth ≤ stackMax
  inner : ∀ b ∈ entries cpf.outerMap, b.2.root.leftDepth ≤ stackMax

theorem foldlM_showLine (f : Text) (es : List (UWord × Counts)) :
    es.foldlM showLine f = .ok (f ++ unlines (es.map rowLine)) := by
  induction es generalizing f with
  | nil => simp [unlines]
  | cons b es ih =>
    rw [foldlM_cons, showLine, ok_bind, ih]
    simp [unlines, rowLine]

theorem foldlM_showFileFn (f : Text) {es : List (FileFn × InnerMap)}
    (h : ∀ b ∈ es, b.2.root.leftDepth ≤ stackMax) :
    es.foldlM showFileFn f
      = .ok (f ++ unlines ((es.map fun b => (b.1, entries b.2)).flatMap sectionLines)) := by
  induction es generalizing f with
  | nil => simp [unlines]
  | cons b es ih =>
    obtain ⟨hb, hes⟩ := forall_mem_cons.mp h
    rw [foldlM_cons, showFileFn, forFM_eq hb, foldlM_showLine, ok_bind, ih _ hes]
    simp [unlines, sectionLines]

/-- **The writer writes these lines if the maps fit the stack…** -/
theorem showCacheProfFile_eq (h : Showable cpf) :
    showCacheProfFile cpf = .ok (unlines (fileLines cpf)) := by
  have hfold := foldlM_showFileFn (unlines (cpf.descLines ++ [cpf.cmdLine, cpf.eventsLine]))
    h.inner
  rw [← table] at hfold
  rw [showCacheProfFile, forFM_eq h.outer, hfold, ok_bind, pure_eq_ok]
  have hlines : fileLines cpf = (cpf.descLines ++ [cpf.cmdLine, cpf.eventsLine])
      ++ (table cpf.outerMap).flatMap sectionLines ++ [summaryLine cpf.summary] := by
    simp only [fileLines, append_assoc, cons_append, nil_append]
  rw [hlines, unlines_append _ [summaryLine _], unlines_append _ (List.flatMap ..),
    unlines_singleton, summaryLine_eq]
  simp only [append_assoc]

theorem exists_of_foldlM_ok {σ α : Type} {body : σ → α → Except Exit σ} {es : List α} {s s' : σ}
    (h : es.foldlM body s = .ok s') : ∀ b ∈ es, ∃ t t', body t b = .ok t' := by
  induction es generalizing s with
  | nil => exact fun b hb => absurd hb not_mem_nil
  | cons a es ih =>
    rw [foldlM_cons] at h
    obtain ⟨s₁, ha, h⟩ := bind_eq_ok.mp h
    exact forall_mem_cons.mpr ⟨⟨s, s₁, ha⟩, ih h⟩

/-- …and else writes no file. -/
theorem showable_of_ok {f : Text} (h : showCacheProfFile cpf = .ok f) : Showable cpf := by
  obtain ⟨f₁, hloop, -⟩ := bind_eq_ok.mp h
  obtain ⟨houter, hfold⟩ := forFM_eq_ok.mp hloop
  refine ⟨houter, fun b hb => ?_⟩
  obtain ⟨t, t', hb'⟩ := exists_of_foldlM_ok hfold b hb
  exact (forFM_eq_ok.mp hb').1

/-! ## Numerals -/

/-- Numerals, each behind the given text, and what follows the last. -/
def numerals (ps : List (Text × ℕ)) (last : Text) : Text :=
  (ps.flatMap fun p => p.1 ++ showLong p.2) ++ last

theorem isspace_of_isDigit {c : Char} (h : c.isDigit) : isspace c = false := by
  have hlo : 48 ≤ c.toNat := Char.isDigit_iff_toNat.mp h |>.1
  rw [isspace, decide_eq_false_iff_not]
  rintro (rfl | hc)
  · exact absurd hlo (by decide)
  · omega

theorem showLong_of_lt (h : n < 2 ^ 63) : showLong n = Nat.toDigits 10 n := if_pos h

theorem startsDigit_eq_false (h : ¬ startsDigit t) :
    t.takeWhile Char.isDigit = [] ∧ t.dropWhile Char.isDigit = t := by
  cases t with
  | nil => exact ⟨rfl, rfl⟩
  | cons c t => exact ⟨takeWhile_cons_of_neg h, dropWhile_cons_of_neg h⟩

/-- **A numeral is read back.** -/
theorem parseULong_showLong {sp rest : Text} (hn : n < 2 ^ 63) (hsp : ∀ c ∈ sp, isspace c)
    (hrest : ¬ startsDigit rest) : parseULong (sp ++ (showLong n ++ rest)) = (some n, rest) := by
  have hdigits : ∀ c ∈ toDigits 10 n, c.isDigit := fun c => isDigit_of_mem_toDigits
  have hread := foldl_digits_mod (2 ^ 64) (toDigits 10 n) 0
  rw [zero_mod, ← readDigits, readDigits_toDigits, mod_eq_of_lt (by omega)] at hread
  obtain ⟨htake, hdrop⟩ := startsDigit_eq_false hrest
  rw [parseULong, showLong_of_lt hn, dropWhile_append_of_pos hsp]
  obtain ⟨d, ds, hds⟩ := exists_cons_of_ne_nil (toDigits_ne_nil (n := n) (b := 10))
  have hd : d.isDigit := hdigits d (hds ▸ mem_cons_self)
  have hptr : (toDigits 10 n ++ rest).dropWhile isspace = toDigits 10 n ++ rest := by
    rw [hds]
    exact dropWhile_cons_of_neg (by simp [isspace_of_isDigit hd])
  have hstart : startsDigit (toDigits 10 n ++ rest) := by
    rw [hds]
    exact hd
  rw [hptr, if_pos hstart, takeWhile_append_of_pos hdigits, dropWhile_append_of_pos hdigits,
    htake, hdrop, append_nil, hread]

theorem numerals_cons (p : Text × ℕ) (ps : List (Text × ℕ)) (last : Text) :
    numerals (p :: ps) last = p.1 ++ (showLong p.2 ++ numerals ps last) := by simp [numerals]

/-- A text of spaces only. -/
def Blank (t : Text) : Prop := ∀ c ∈ t, isspace c

theorem Blank.not_startsDigit (h : Blank t) : ¬ startsDigit t := by
  cases t with
  | nil => exact Bool.false_ne_true
  | cons c t =>
    intro hd
    have hc := h c mem_cons_self
    rw [isspace_of_isDigit hd] at hc
    cases hc

theorem Blank.parseULong (h : Blank t) : parseULong t = (none, []) := by
  have hdrop : t.dropWhile isspace = [] := dropWhile_eq_nil_iff.mpr h
  rw [CgMerge.parseULong, hdrop]
  rfl

/-- The numerals are short enough, and blanks stand between them. -/
structure Spaced (ps : List (Text × ℕ)) : Prop where
  lt : ∀ p ∈ ps, p.2 < 2 ^ 63
  blank : ∀ p ∈ ps, Blank p.1
  ne_nil : ∀ p ∈ ps.tail, p.1 ≠ []

theorem Spaced.tail (h : Spaced (p :: ps)) : Spaced ps :=
  ⟨fun q hq => h.lt q (mem_cons_of_mem p hq), fun q hq => h.blank q (mem_cons_of_mem p hq),
    fun q hq => h.ne_nil q (mem_of_mem_tail hq)⟩

/-- What follows a numeral does not go on with it. -/
theorem Spaced.not_startsDigit (h : Spaced (p :: ps)) (hlast : Blank last) :
    ¬ startsDigit (numerals ps last) := by
  cases ps with
  | nil => exact hlast.not_startsDigit
  | cons q ps =>
    obtain ⟨c, t, ht⟩ := exists_cons_of_ne_nil (h.ne_nil q mem_cons_self)
    have hq : Blank q.1 := h.blank q (by simp)
    rw [ht] at hq
    have hc : ¬ startsDigit [c] :=
      Blank.not_startsDigit fun d hd => hq d (mem_singleton.mp hd ▸ mem_cons_self)
    simpa [numerals, ht, startsDigit] using hc

/-- **Spaced numerals are read back.** -/
theorem parseCounts_numerals (h : Spaced ps) (hlast : Blank last) {fuel : ℕ}
    (hfuel : ps.length < fuel) : parseCounts fuel (numerals ps last) = (ps.map Prod.snd, []) := by
  induction ps generalizing fuel with
  | nil =>
    obtain ⟨fuel, rfl⟩ : ∃ k, fuel = k + 1 := ⟨fuel - 1, by omega⟩
    have hread : parseULong (numerals [] last) = (none, []) := hlast.parseULong
    rw [parseCounts, hread]
    rfl
  | cons p ps ih =>
    obtain ⟨fuel, rfl⟩ : ∃ k, fuel = k + 1 := ⟨fuel - 1, by omega⟩
    have hread := parseULong_showLong (h.lt p mem_cons_self)
      (h.blank p mem_cons_self) (h.not_startsDigit hlast)
    rw [length_cons] at hfuel
    rw [parseCounts, numerals_cons, hread]
    dsimp only
    rw [ih h.tail (by omega)]
    rfl

theorem showLong_length_pos (n : ℕ) : 0 < (showLong n).length := by
  rw [showLong]
  split_ifs
  · exact length_pos_iff.mpr toDigits_ne_nil
  · exact succ_pos _

theorem length_le_numerals (ps : List (Text × ℕ)) (last : Text) :
    ps.length ≤ (numerals ps last).length := by
  induction ps with
  | nil => exact zero_le
  | cons p ps ih =>
    have hpos := showLong_length_pos p.2
    rw [numerals_cons, length_cons, length_append, length_append]
    omega

theorem parseCountsLine_numerals (h : Spaced ps) (hlast : Blank last) :
    parseCountsLine (numerals ps last) = .ok (ps.map Prod.snd) := by
  have hfuel := length_le_numerals ps last
  rw [parseCountsLine, parseCounts_numerals h hlast (by omega)]
  rfl

/-- The numerals of a line of counts. -/
theorem rowLine_eq (l : UWord) (c : ℕ) (cs : Counts) : rowLine (l, c :: cs)
      = numerals (([], l) :: ("   ".toList, c) :: cs.map fun n => ([' '], n)) [' '] := by
  have hcons : ∀ n cs, showCounts (n :: cs) = showLong n ++ ' ' :: showCounts cs := by
    simp [showCounts]
  have hshift : ∀ cs : Counts, ' ' :: showCounts cs
      = (cs.flatMap fun n => ' ' :: showLong n) ++ [' '] := by
    intro cs
    induction cs with
    | nil => rfl
    | cons n cs ih =>
      rw [hcons, ih]
      simp
  simp only [rowLine, hcons, hshift, numerals, flatMap_cons, flatMap_map, nil_append,
    append_assoc, singleton_append]

theorem blank_space : Blank [' '] := by
  rintro c hc
  rw [mem_singleton.mp hc]
  rfl

theorem parseCountsLine_rowLine {l : UWord} (hl : l < 2 ^ 63) (hcs : ∀ x ∈ cs, x < 2 ^ 63)
    (hne : cs ≠ []) : parseCountsLine (rowLine (l, cs)) = .ok (l :: cs) := by
  obtain ⟨c, cs, rfl⟩ := exists_cons_of_ne_nil hne
  obtain ⟨hc, hcs⟩ := forall_mem_cons.mp hcs
  have hthree : Blank "   ".toList := by
    intro d hd
    have : d = ' ' := by simpa using hd
    rw [this]
    rfl
  have hspaced : Spaced (([], l) :: ("   ".toList, c) :: cs.map fun n => ([' '], n)) := by
    refine ⟨?_, ?_, ?_⟩
    · simpa using ⟨hl, hc, hcs⟩
    · simpa using ⟨fun _ h => absurd h not_mem_nil, hthree, fun _ _ => blank_space⟩
    · simp
  rw [rowLine_eq, parseCountsLine_numerals hspaced blank_space]
  simp [Function.comp_def]

theorem splitUpSummaryLine_summaryLine (hcs : ∀ x ∈ cs, x < 2 ^ 63) (hne : cs ≠ []) :
    splitUpSummaryLine ((summaryLine cs).drop 8) = .ok cs := by
  have htext : (summaryLine cs).drop 8 = numerals (cs.map fun n => ([' '], n)) [] := by
    have hdrop : (summaryLine cs).drop 8 = cs.flatMap fun n => ' ' :: showLong n := rfl
    rw [hdrop]
    simp [numerals, flatMap_map]
  have hspaced : Spaced (cs.map fun n => ([' '], n)) := by
    refine ⟨by simpa using hcs, by simpa using fun _ _ => blank_space, fun p hp => ?_⟩
    obtain ⟨n, -, rfl⟩ := mem_map.mp (mem_of_mem_tail hp)
    simp
  have hblank : Blank [] := fun _ h => absurd h not_mem_nil
  refine splitUpSummaryLine_ok.mpr ⟨?_, hne⟩
  rw [htext, parseCountsLine_numerals hspaced hblank]
  simp [Function.comp_def]

/-! ## Sections -/

/-- Line number and counts can be printed. -/
structure Printable (n : ℕ) (b : UWord × Counts) : Prop where
  line_lt : b.1 < 2 ^ 63
  counts_lt : ∀ x ∈ b.2, x < 2 ^ 63
  length_eq : b.2.length = n

theorem startsDigit_rowLine (hb : Printable n b) : startsDigit (rowLine b) := by
  obtain ⟨d, ds, hds⟩ := exists_cons_of_ne_nil (toDigits_ne_nil (n := b.1) (b := 10))
  have hd : d.isDigit := isDigit_of_mem_toDigits (n := b.1) (hds ▸ mem_cons_self)
  rw [rowLine, showLong_of_lt hb.line_lt, hds]
  exact hd

/-- The rows of a function are merged in. -/
theorem parseData_rows {rows : List (UWord × Counts)} {ff : FileFn} (rest : List Text)
    (h : Sound cpf) (hpos : 0 < cpf.nEvents) (hfi : IsLine ff.fiName) (hfn : IsLine ff.fnName)
    (hrows : ∀ b ∈ rows, Printable cpf.nEvents b) :
    ∃ outer summary, parseData ff.fiName ff.fnName cpf (rows.map rowLine ++ rest)
        = parseData ff.fiName ff.fnName { cpf with outerMap := outer, summary := summary } rest
      ∧ Sound { cpf with outerMap := outer, summary := summary }
      ∧ flat (view outer) = (rows.map fun c => ((ff, c.1), c.2)).foldl
        (fun f b => merge plus f (single b.1 b.2)) (countsAt cpf) := by
  induction rows generalizing cpf with
  | nil => exact ⟨cpf.outerMap, cpf.summary, rfl, h, rfl⟩
  | cons b rows ih =>
    obtain ⟨hb, hrows⟩ := forall_mem_cons.mp hrows
    have hne : b.2 ≠ [] := length_pos_iff.mp (hb.length_eq ▸ hpos)
    have hsplit : splitUpCountsLine (rowLine b) = .ok (b.1, b.2) :=
      splitUpCountsLine_ok.mpr ⟨parseCountsLine_rowLine hb.line_lt hb.counts_lt hne, hne⟩
    obtain ⟨outer₁, hhandle, h₁, hflat₁⟩ := handleCounts_spec h hfi hfn hsplit hb.length_eq
    obtain ⟨outer, summary, hrun, hsound, hflat⟩ := ih h₁ hpos hrows
    refine ⟨outer, summary, ?_, hsound, ?_⟩
    · rw [map_cons, cons_append, parseData, if_pos (startsDigit_rowLine hb), hhandle,
        ok_bind, hrun]
    · rw [hflat, map_cons, foldl_cons, ← hflat₁]
      rfl

/-- The sections of a file are merged in. -/
theorem parseData_sections {tab : List (FileFn × List (UWord × Counts))} (currFl currFn : Text)
    (rest : List Text) (h : Sound cpf) (hpos : 0 < cpf.nEvents)
    (hnames : ∀ b ∈ tab, IsLine b.1.fiName ∧ IsLine b.1.fnName)
    (htab : ∀ b ∈ tab, ∀ c ∈ b.2, Printable cpf.nEvents c) :
    ∃ fl fn outer summary, parseData currFl currFn cpf (tab.flatMap sectionLines ++ rest)
        = parseData fl fn { cpf with outerMap := outer, summary := summary } rest
      ∧ Sound { cpf with outerMap := outer, summary := summary }
      ∧ flat (view outer) = (tab.flatMap fun b => b.2.map fun c => ((b.1, c.1), c.2)).foldl
        (fun f b => merge plus f (single b.1 b.2)) (countsAt cpf) := by
  induction tab generalizing currFl currFn cpf with
  | nil => exact ⟨currFl, currFn, cpf.outerMap, cpf.summary, rfl, h, rfl⟩
  | cons b tab ih =>
    obtain ⟨⟨hfi, hfn⟩, hnames⟩ := forall_mem_cons.mp hnames
    obtain ⟨hb, htab⟩ := forall_mem_cons.mp htab
    obtain ⟨outer₁, summary₁, hrun₁, h₁, hflat₁⟩ :=
      parseData_rows (tab.flatMap sectionLines ++ rest) h hpos hfi hfn hb
    obtain ⟨fl, fn, outer, summary, hrun, hsound, hflat⟩ :=
      ih b.1.fiName b.1.fnName h₁ hpos hnames htab
    refine ⟨fl, fn, outer, summary, ?_, hsound, ?_⟩
    · rw [flatMap_cons, sectionLines, append_assoc, cons_append, cons_append]
      exact hrun₁.trans hrun
    · rw [hflat, flatMap_cons, foldl_append, ← hflat₁]
      rfl

/-! ## The whole file -/

theorem isLine_iff : IsLine t ↔ ∀ c ∈ t, c ≠ '\n' ∧ c ≠ '\x00' :=
  ⟨fun h _ hc => ⟨fun heq => h.newline (heq ▸ hc), fun heq => h.nul (heq ▸ hc)⟩,
    fun h => ⟨fun hm => (h _ hm).1 rfl, fun hm => (h _ hm).2 rfl⟩⟩

theorem IsLine.append {s : Text} (hs : IsLine s) (ht : IsLine t) : IsLine (s ++ t) :=
  isLine_iff.mpr (forall_mem_append.mpr ⟨isLine_iff.mp hs, isLine_iff.mp ht⟩)

theorem isLine_showLong (h : n < 2 ^ 63) : IsLine (showLong n) := by
  rw [showLong_of_lt h, isLine_iff]
  intro c hc
  have hd : c.isDigit := isDigit_of_mem_toDigits hc
  exact ⟨fun heq => absurd (heq ▸ hd) (by decide), fun heq => absurd (heq ▸ hd) (by decide)⟩

theorem IsLine.flatMap {α : Type} {l : List α} {f : α → Text} (h : ∀ a ∈ l, IsLine (f a)) :
    IsLine (l.flatMap f) := by
  rw [isLine_iff]
  intro c hc
  obtain ⟨a, ha, hca⟩ := mem_flatMap.mp hc
  exact isLine_iff.mp (h a ha) c hca

theorem isLine_space : IsLine [' '] := ⟨by decide, by decide⟩

theorem isLine_rowLine (hb : Printable n b) : IsLine (rowLine b) :=
  ((isLine_showLong hb.line_lt).append ⟨by decide, by decide⟩).append
    (flatMap fun x hx => (isLine_showLong (hb.counts_lt x hx)).append isLine_space)

theorem isLine_summaryLine (hcs : ∀ x ∈ cs, x < 2 ^ 63) : IsLine (summaryLine cs) :=
  append ⟨by decide, by decide⟩
    (flatMap fun x hx => isLine_space.append (isLine_showLong (hcs x hx)))

/-- Lines are read as they were written. -/
theorem readlines_unlines {ls : List Text} (h : ∀ l ∈ ls, IsLine l) :
    readlines (unlines ls) = ls := by
  rw [readlines, lines_unlines fun l hl => (h l hl).newline]
  refine (map_congr_left fun l hl => ?_).trans (map_id ls)
  refine takeWhile_eq_self_iff.mpr fun c hc => ?_
  simpa using (isLine_iff.mp (h l hl) c hc).2

/-- All line numbers, counts and sums are below 2⁶³. -/
structure Small (cpf : CacheProfFile) : Prop where
  line_lt : ∀ p, countsAt cpf p ≠ none → p.2 < 2 ^ 63
  counts_lt : ∀ p c, countsAt cpf p = some c → ∀ x ∈ c, x < 2 ^ 63
  summary_lt : ∀ x ∈ cpf.summary, x < 2 ^ 63

/-- Equal profiles: the same lines, the same two-level map and the same summary. -/
structure Same (cpf cpf' : CacheProfFile) : Prop where
  descLines : cpf'.descLines = cpf.descLines
  cmdLine : cpf'.cmdLine = cpf.cmdLine
  eventsLine : cpf'.eventsLine = cpf.eventsLine
  nEvents : cpf'.nEvents = cpf.nEvents
  table : table cpf'.outerMap = table cpf.outerMap
  summary : cpf'.summary = cpf.summary

/-- It is enough to look at the entries. -/
theorem Small.of_cells (h : Profile cpf)
    (hcells : ∀ b ∈ cells cpf.outerMap, b.1.2 < 2 ^ 63 ∧ ∀ x ∈ b.2, x < 2 ^ 63)
    (hsum : ∀ x ∈ cpf.summary, x < 2 ^ 63) : Small cpf := by
  have hmem : ∀ p c, countsAt cpf p = some c → (p, c) ∈ cells cpf.outerMap :=
    fun p c => (h.twoLevel.lists.mem_iff p c).mpr
  refine ⟨fun p hp => ?_, fun p c hp => (hcells _ (hmem p c hp)).2, hsum⟩
  obtain ⟨c, hc⟩ := Option.ne_none_iff_exists'.mp hp
  exact (hcells _ (hmem p c hc)).1

theorem mem_table {b : FileFn × List (UWord × Counts)} (h : Profile cpf)
    (hb : b ∈ table cpf.outerMap) :
    ∃ m, Section cpf.nEvents b.1 m ∧ ∀ c ∈ b.2, countsAt cpf (b.1, c.1) = some c.2 := by
  obtain ⟨⟨ff, m⟩, he, rfl⟩ := mem_map.mp hb
  have hget := h.twoLevel.valid.getFM_eq_some_iff.mpr he
  have hsec := h.twoLevel.sections ff m hget
  refine ⟨m, hsec, fun c hc => ?_⟩
  have hc' := hsec.lineMap.valid.getFM_eq_some_iff.mpr hc
  simp only [countsAt, flat, view, hget, Option.map_some, Option.bind_some, hc']

theorem printable_of_mem_table (h : Profile cpf) (hsmall : Small cpf) :
    ∀ b ∈ table cpf.outerMap, ∀ c ∈ b.2, Printable cpf.nEvents c := by
  intro b hb c hc
  obtain ⟨m, -, hcounts⟩ := mem_table h hb
  have hat := hcounts c hc
  exact ⟨hsmall.line_lt (b.1, c.1) (by simp [hat]), hsmall.counts_lt _ _ hat,
    (h.twoLevel.isVec hat).length_eq⟩

theorem isLine_fileLines (h : Profile cpf) (hsmall : Small cpf) : ∀ l ∈ fileLines cpf, IsLine l := by
  have hsections : ∀ l ∈ (table cpf.outerMap).flatMap sectionLines, IsLine l := by
    intro l hl
    obtain ⟨b, hb, hl⟩ := mem_flatMap.mp hl
    obtain ⟨m, hsec, -⟩ := mem_table h hb
    rw [sectionLines, mem_cons, mem_cons, mem_map] at hl
    obtain rfl | rfl | ⟨c, hc, rfl⟩ := hl
    · exact append ⟨by decide, by decide⟩ hsec.fiName
    · exact append ⟨by decide, by decide⟩ hsec.fnName
    · exact isLine_rowLine (printable_of_mem_table h hsmall b hb c hc)
  intro l hl
  simp only [fileLines, mem_append, mem_cons, not_mem_nil, or_false] at hl
  obtain hl | rfl | rfl | hl | rfl := hl
  · exact (h.desc l hl).2
  · exact h.cmd.2
  · exact h.events.2
  · exact hsections l hl
  · exact isLine_summaryLine hsmall.summary_lt

/-- The summary line ends the data lines. -/
theorem parseData_summaryLine (fl fn : Text) (cpf : CacheProfFile) (hne : cs ≠ []) :
    parseData fl fn cpf [summaryLine cs] = .ok (cpf, summaryLine cs, [])
      ∧ streqn (summaryLine cs) "summary: " := by
  obtain ⟨c, cs, rfl⟩ := exists_cons_of_ne_nil hne
  exact ⟨rfl, rfl⟩

/-- The summary is known by the counts. -/
theorem summary_congr {cpf' : CacheProfFile} (h : Sound cpf) (h' : Sound cpf')
    (hn : cpf'.nEvents = cpf.nEvents)
    (hflat : flat (view cpf'.outerMap) = flat (view cpf.outerMap)) : cpf'.summary = cpf.summary := by
  have hcells : (cells cpf'.outerMap).Perm (cells cpf.outerMap) :=
    h'.twoLevel.lists.perm (hflat ▸ h.twoLevel.lists)
  refine h'.summary_isVec.ext (hn ▸ h.summary_isVec) ?_
  rw [h'.summary_eq, h.summary_eq, total, total]
  exact (hcells.map _).sum_eq

/-- **The lines that are written are read back as an equal profile.** -/
theorem parse_fileLines (h : Profile cpf) (hsmall : Small cpf) :
    ∃ cpf', parseCacheProfFile (unlines (fileLines cpf)) = .ok cpf' ∧ Same cpf cpf' := by
  have hempty : (emptyProfile cpf.descLines cpf.cmdLine cpf.eventsLine).nEvents = cpf.nEvents :=
    h.nEvents_eq.symm
  have hnames : ∀ b ∈ table cpf.outerMap, IsLine b.1.fiName ∧ IsLine b.1.fnName := fun b hb => by
    obtain ⟨m, hsec, -⟩ := mem_table h hb
    exact ⟨hsec.fiName, hsec.fnName⟩
  obtain ⟨fl, fn, outer, summary, hrun, hsound, hflat⟩ :=
    parseData_sections unknown unknown [summaryLine cpf.summary]
      (sound_emptyProfile cpf.descLines cpf.cmdLine cpf.eventsLine) (hempty ▸ h.nEvents_pos) hnames
      (hempty ▸ printable_of_mem_table h hsmall)
  have hcells : ((table cpf.outerMap).flatMap fun b => b.2.map fun c => ((b.1, c.1), c.2))
      = cells cpf.outerMap := by simp [table, cells, flatMap_map]
  have hflat' : flat (view outer) = flat (view cpf.outerMap) := by
    rw [hflat, hcells, h.twoLevel.lists.foldl_merge plus]
    exact FiniteMap.none_merge plus _
  have hsummary := summary_congr h.toSound hsound hempty hflat'
  dsimp only at hsummary
  have hne : cpf.summary ≠ [] :=
    length_pos_iff.mp (h.summary_isVec.length_eq.symm ▸ h.nEvents_pos)
  obtain ⟨hend, hstart⟩ := parseData_summaryLine fl fn
    { emptyProfile cpf.descLines cpf.cmdLine cpf.eventsLine with
      outerMap := outer, summary := summary } hne
  refine ⟨_, Layout.parse ⟨readlines_unlines (isLine_fileLines h hsmall), h.desc_ne,
    fun l hl => (h.desc l hl).1, h.cmd.1, h.events.1, hstart, hrun.trans hend, ?_, ?_⟩, ?_⟩
  · rw [hsummary]
    exact splitUpSummaryLine_summaryLine hsmall.summary_lt hne
  · exact hsound.summary_isVec.length_eq
  · exact ⟨rfl, rfl, rfl, hempty, hsound.twoLevel.table_congr h.twoLevel hflat', hsummary⟩

/-- **What `cg_merge` writes it reads back.**  Of every profile that parsing and merging make, with
all numbers below 2⁶³, a file is written that parses as an equal profile iff the maps of the profile
have a left depth of at most 32. -/
theorem show_parse (T : Merging) (cpf : CacheProfFile) (hT : T.Parsed) (heval : T.eval = .ok cpf)
    (hsmall : Small cpf) :
    (∃ text cpf', showCacheProfFile cpf = .ok text ∧ parseCacheProfFile text = .ok cpf'
      ∧ Same cpf cpf') ↔ Showable cpf := by
  constructor
  · rintro ⟨text, cpf', hshow, -⟩
    exact showable_of_ok hshow
  · intro hshowable
    obtain ⟨cpf', hparse, hsame⟩ := parse_fileLines (Merging.profile_of_eval hT heval) hsmall
    exact ⟨_, cpf', showCacheProfFile_eq hshowable, hparse, hsame⟩

theorem show_parse_small :
    ∃ text cpf', showCacheProfFile smallProfile = .ok text ∧ parseCacheProfFile text = .ok cpf'
      ∧ Same smallProfile cpf' := by
  have hparsed : (Merging.file smallProfile).Parsed :=
    fun c hc => ⟨smallFile, mem_singleton.mp hc ▸ parse_smallFile⟩
  have hsmall : Small smallProfile :=
    Small.of_cells (profile_of_parse parse_smallFile) (forall_mem_singleton.mpr (by decide))
      (by decide)
  refine (show_parse (.file smallProfile) smallProfile hparsed rfl hsmall).mpr ⟨by decide, ?_⟩
  intro b hb
  rw [mem_singleton.mp hb]
  decide

end Valgrind.CgMerge
