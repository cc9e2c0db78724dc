import Mathlib.Data.List.TakeWhile
import Valgrind.CgMerge.Profile

/-!
# CgMerge/Parsing — what a profile that `cg_merge` accepts looks like

`Layout` says how the lines of an accepted file are arranged: `desc:` lines, the `cmd:` and the
`events:` line, data lines, and the summary line at the very end.
-/

namespace Valgrind.CgMerge

open List

/-- The profile before the data lines are read. -/
def emptyProfile (descLines : List Text) (cmdLine eventsLine : Text) : CacheProfFile :=
  let nEvents := countEvents (eventsLine.drop 6)
  { descLines, cmdLine, eventsLine, nEvents
    outerMap := WordFM.newFM cmpFileFn
    summary := List.replicate nEvents 0 }

/-- The name of files and functions before the first `fl=` and `fn=`. -/
def unknown : Text := "???".toList

/-- The lines of an accepted file, and the profile read from them. -/
structure Layout (lines : List Text) (descLines : List Text) (cmdLine eventsLine : Text)
    (data : List Text) (summaryLine : Text) (cpf : CacheProfFile) : Prop where
  lines_eq : lines = descLines ++ cmdLine :: eventsLine :: (data ++ [summaryLine])
  desc_ne : descLines ≠ []
  desc : ∀ l ∈ descLines, streqn l "desc: "
  cmd : streqn cmdLine "cmd: "
  events : streqn eventsLine "events: "
  summary : streqn summaryLine "summary: "
  parsed : parseData unknown unknown (emptyProfile descLines cmdLine eventsLine)
    (data ++ [summaryLine]) = .ok (cpf, summaryLine, [])
  counts : splitUpSummaryLine (summaryLine.drop 8) = .ok cpf.summary
  counts_length : cpf.summary.length = cpf.nEvents

theorem streqn_iff {line : Text} {lit : String} :
    streqn line lit ↔ ∃ t, line = lit.toList ++ t := by
  rw [streqn, isPrefixOf_iff_prefix]
  exact exists_congr fun t => eq_comm

/-- The data lines end at a summary line. -/
theorem parseData_lines {ls : List Text} {currFl currFn : Text} {cpf cpf' : CacheProfFile}
    {line : Text} {rest : List Text}
    (h : parseData currFl currFn cpf ls = .ok (cpf', line, rest)) :
    ∃ data, ls = data ++ line :: rest ∧ streqn line "summary: " := by
  induction ls generalizing currFl currFn cpf with
  | nil => cases h
  | cons l ls ih =>
    have hskip : (∃ data, ls = data ++ line :: rest ∧ streqn line "summary: ") →
        ∃ data, l :: ls = data ++ line :: rest ∧ streqn line "summary: " := by
      rintro ⟨data, rfl, hline⟩
      exact ⟨l :: data, rfl, hline⟩
    simp only [parseData] at h
    split_ifs at h with hdigit hfn hfl hsum
    · obtain ⟨cpf₁, -, h⟩ := bind_eq_ok.mp h
      exact hskip (ih h)
    · exact hskip (ih h)
    · exact hskip (ih h)
    · obtain ⟨-, rfl, rfl⟩ := Prod.mk.injEq .. ▸ Except.ok.inj h
      exact ⟨[], rfl, hsum⟩

/-- Nothing follows the summary line, and its counts are those of the lines. -/
theorem parseSummary_ok {cpf cpf' : CacheProfFile} {line : Text} {rest : List Text} :
    parseSummary cpf line rest = .ok cpf'
      ↔ rest = [] ∧ cpf' = cpf ∧ splitUpSummaryLine (line.drop 8) = .ok cpf.summary
        ∧ cpf.summary.length = cpf.nEvents := by
  rw [parseSummary]
  by_cases hrest : rest = []
  · rw [if_neg (not_not.mpr hrest), bind_eq_ok]
    constructor
    · rintro ⟨read, hread, h⟩
      split_ifs at h with hlen hsum
      obtain rfl := not_not.mp hsum
      exact ⟨hrest, (Except.ok.inj h).symm, hread, not_not.mp hlen⟩
    · rintro ⟨-, rfl, hread, hlen⟩
      exact ⟨_, hread, by simp [hlen]⟩
  · simp [hrest]

/-- **An accepted file is laid out so…** -/
theorem Layout.of_ok {s : Text} {cpf : CacheProfFile} (h : parseCacheProfFile s = .ok cpf) :
    ∃ descLines cmdLine eventsLine data summaryLine,
      Layout (readlines s) descLines cmdLine eventsLine data summaryLine cpf := by
  rw [parseCacheProfFile, span_eq_takeWhile_dropWhile] at h
  dsimp only at h
  have hlines := takeWhile_append_dropWhile (p := (streqn · "desc: ")) (l := readlines s)
  generalize hdesc : (readlines s).takeWhile (streqn · "desc: ") = descLines at h hlines
  generalize (readlines s).dropWhile (streqn · "desc: ") = rest at h hlines
  split_ifs at h with hne
  cases rest with
  | nil => cases h
  | cons cmdLine rest =>
    cases rest with
    | nil =>
      simp only [parseHeader] at h
      split_ifs at h
    | cons eventsLine rest =>
      simp only [parseHeader] at h
      split_ifs at h with hcmd hevents
      obtain ⟨⟨cpf₁, summaryLine, rest'⟩, hdata, h⟩ := bind_eq_ok.mp h
      obtain ⟨rfl, rfl, hcounts, hlen⟩ := parseSummary_ok.mp h
      obtain ⟨data, rfl, hsummary⟩ := parseData_lines hdata
      refine ⟨descLines, cmdLine, eventsLine, data, summaryLine, hlines.symm, hne, ?_, ?_, ?_,
        hsummary, hdata, hcounts, hlen⟩
      · intro l hl
        rw [← hdesc] at hl
        exact mem_takeWhile_imp (p := (streqn · "desc: ")) hl
      · simpa using hcmd
      · simpa using hevents

/-- …and a file that is laid out so is accepted. -/
theorem Layout.parse {s : Text} {descLines data : List Text} {cmdLine eventsLine summaryLine : Text}
    {cpf : CacheProfFile}
    (h : Layout (readlines s) descLines cmdLine eventsLine data summaryLine cpf) :
    parseCacheProfFile s = .ok cpf := by
  have hcmd : ¬ streqn cmdLine "desc: " := by
    obtain ⟨t, rfl⟩ := streqn_iff.mp h.cmd
    exact Bool.false_ne_true
  rw [parseCacheProfFile, h.lines_eq, span_eq_takeWhile_dropWhile,
    takeWhile_append_of_pos h.desc, dropWhile_append_of_pos h.desc,
    takeWhile_cons_of_neg (p := (streqn · "desc: ")) hcmd,
    dropWhile_cons_of_neg (p := (streqn · "desc: ")) hcmd, append_nil]
  simp only [h.desc_ne, if_false, parseHeader, h.cmd, h.events, Bool.not_true, Bool.false_eq_true]
  have hparsed := h.parsed
  rw [emptyProfile] at hparsed
  rw [show "???".toList = unknown from rfl, hparsed, ok_bind]
  exact parseSummary_ok.mpr ⟨rfl, rfl, h.counts, h.counts_length⟩

end Valgrind.CgMerge
