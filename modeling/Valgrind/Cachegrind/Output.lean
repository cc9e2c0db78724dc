import Valgrind.Cachegrind.Sim
import Valgrind.CgMerge.Parsing
import Valgrind.Core.OSet

/-!
# Cachegrind/Output — `fprint_CC_table_and_calc_totals` and `print_stats`: the output file

The output file has `desc:` lines, a `cmd:` line, an `events:` line, the counts of every source line
under its `fl=` and `fn=` lines, and a `summary:` line with the totals.  Behind it `print_stats`
adds the throttle parameter, and for some policies tables of uses and misses.

`cg_merge` takes the summary line for the end of the file: `output_not_mergeable`.
-/

namespace Valgrind.Cachegrind

open List
open CgMerge (Text parseCacheProfFile readlines streqn)

/-! ## The table of lines -/

/-- `cmp_CodeLoc_LineCC`: first the files, then the functions, then the lines. -/
def cmpCodeLocLineCC (a : CodeLoc) (cc : LineCC) : ℤ :=
  let file := CgMerge.strcmp a.file.toList cc.loc.file.toList
  if file ≠ 0 then file
  else
    let fn := CgMerge.strcmp a.fn.toList cc.loc.fn.toList
    if fn ≠ 0 then fn else a.line - cc.loc.line

/-- How `CC_table` is created; it compares with a function, so keys are never read as words. -/
def ccTableSpec : KeySpec CodeLoc LineCC where
  keyOf := LineCC.loc
  wordOf _ := 0
  cmp := some cmpCodeLocLineCC

/-! ## Printing -/

/-- `%s`, and the constant parts of a format. -/
def showS (s : String) : Text := s.toList

/-- `%llu`. -/
def showLlu (n : ℕ) : Text := Nat.toDigits 10 n

/-- `%d`. -/
def showD (n : ℤ) : Text := if 0 ≤ n then Nat.toDigits 10 n.toNat else '-' :: Nat.toDigits 10 n.natAbs

/-- The arguments of `%f`: the throttle parameter, and percentages in `float` arithmetic. -/
inductive FloatArg where
  | throttle (p : ℚ)
  | percent (part whole : ℕ)

/-- What the writer reads besides the table of lines. -/
structure OutputEnv where
  opts : Options
  cloCacheSim : Bool
  cloBranchSim : Bool
  I1desc : String
  D1desc : String
  LLdesc : String
  /-- `VG_(args_the_exename)`. -/
  exeName : String
  /-- `VG_(args_for_client)`. -/
  clientArgs : List String
  policies : Fin 4 → Policy
  dataBlocks : ℕ
  accessCounter : ℕ
  /-- What `%f` prints. -/
  showF : FloatArg → Text
  /-- It prints digits, a point, a sign or stars. -/
  showF_newline : ∀ x, '\n' ∉ showF x

namespace OutputEnv

variable (env : OutputEnv)

/-- The counts of a line that the events line announces. -/
def counts (cc : LineCC) : List ℕ :=
  [cc.Ir.a]
    ++ (if env.cloCacheSim then
      [cc.Ir.m1, cc.Ir.mL, cc.Dr.a, cc.Dr.m1, cc.Dr.mL, cc.Dw.a, cc.Dw.m1, cc.Dw.mL] else [])
    ++ (if env.cloBranchSim then [cc.Bc.b, cc.Bc.mp, cc.Bi.b, cc.Bi.mp] else [])

/-- The events line; with cache simulation only it ends in a space. -/
def eventsLine : Text :=
  match env.cloCacheSim, env.cloBranchSim with
  | true, true => showS "events: Ir I1mr ILmr Dr D1mr DLmr Dw D1mw DLmw Bc Bcm Bi Bim"
  | true, false => showS "events: Ir I1mr ILmr Dr D1mr DLmr Dw D1mw DLmw "
  | false, true => showS "events: Ir Bc Bcm Bi Bim"
  | false, false => showS "events: Ir"

/-- The header of the file. -/
def header : Text :=
  showS "desc: I1 cache:         " ++ showS env.I1desc ++ ['\n']
    ++ showS "desc: D1 cache:         " ++ showS env.D1desc ++ ['\n']
    ++ showS "desc: LL cache:         " ++ showS env.LLdesc ++ ['\n']
    ++ showS "cmd: " ++ showS env.exeName ++ env.clientArgs.flatMap (fun arg => ' ' :: showS arg)
    ++ ['\n'] ++ env.eventsLine ++ ['\n']

/-- What the loop over the table carries along: the output, `currFile`, `currFn` and the totals. -/
structure Progress where
  out : Text
  currFile : Option String
  currFn : Option String
  totals : LineCC

/-- The totals with the counts of a line added, as 64-bit numbers. -/
def addTotals (t cc : LineCC) : LineCC :=
  let plus (a b : ℕ) := (a + b) % 2 ^ 64
  { loc := t.loc
    Ir := ⟨plus t.Ir.a cc.Ir.a, plus t.Ir.m1 cc.Ir.m1, plus t.Ir.mL cc.Ir.mL⟩
    Dr := ⟨plus t.Dr.a cc.Dr.a, plus t.Dr.m1 cc.Dr.m1, plus t.Dr.mL cc.Dr.mL⟩
    Dw := ⟨plus t.Dw.a cc.Dw.a, plus t.Dw.m1 cc.Dw.m1, plus t.Dw.mL cc.Dw.mL⟩
    Bc := ⟨plus t.Bc.b cc.Bc.b, plus t.Bc.mp cc.Bc.mp⟩
    Bi := ⟨plus t.Bi.b cc.Bi.b, plus t.Bi.mp cc.Bi.mp⟩ }

/-- The body of the loop over the table. -/
def printLineCC (p : Progress) (cc : LineCC) : Progress :=
  let newFile := p.currFile ≠ some cc.loc.file
  let fl := if newFile then showS "fl=" ++ showS cc.loc.file ++ ['\n'] else []
  let fn := if newFile ∨ p.currFn ≠ some cc.loc.fn then
    showS "fn=" ++ showS cc.loc.fn ++ ['\n'] else []
  { out := p.out ++ fl ++ fn ++ showD cc.loc.line
      ++ (env.counts cc).flatMap (fun n => ' ' :: showLlu n) ++ ['\n']
    currFile := some cc.loc.file
    currFn := some cc.loc.fn
    totals := addTotals p.totals cc }

/-- The totals before the traversal. -/
def zeroTotals : LineCC := LineCC.new ⟨"", "", 0⟩

/-- A table of the four policies: a title with a number, then for each policy its name, a count and
a percentage of `whole`. -/
def policyTable (title : String) (whole : ℕ) (count : Policy → ℕ) : Text :=
  showS title ++ showLlu whole ++ showS "]:\n"
    ++ policyIndices.flatMap (fun i =>
      showS " " ++ showS (env.policies i).name ++ showS " " ++ showLlu (count (env.policies i))
        ++ showS " - " ++ env.showF (.percent (count (env.policies i)) whole) ++ showS " \n")
    ++ showS " \n"

/-- The line with the throttle parameter. -/
def throttleLine : Text :=
  showS "BIP Throttle parameter " ++ env.showF (.throttle env.opts.bipThrottleParameter)

/-- The line `print_stats` begins with for the policies that have tables. -/
def approach : Option String :=
  match env.opts.cacheReplacementPolicy with
  | .fixedWindow => some "Fixed-window approach"
  | .slidingWindow => some "Sliding-window approach"
  | .online => some "Online approach"
  | .adaptative => some "HIL approach"
  | .naive => some "Naive approach"
  | .cacheDueling => some "Cache dueling approach"
  | _ => none

/-- `print_stats`.  `window_counter` is an `int` printed by `%llu`. -/
def printStats : Text :=
  match env.approach with
  | none => env.throttleLine ++ ['\n']
  | some name =>
    showS "\n..." ++ showS name ++ showS "...\n"
      ++ (if env.opts.cacheReplacementPolicy = .fixedWindow then
        showS "\n...Block size: " ++ showLlu env.opts.windowCounter.toNat ++ showS "...\n" else [])
      ++ env.throttleLine ++ ['\n']
      ++ env.policyTable "\n\nSummary policy used times [Total uses " env.dataBlocks Policy.uses
      ++ (if env.opts.cacheReplacementPolicy ∈
          [CgCachePolicy.slidingWindow, .online, .cacheDueling] then
        env.policyTable "\n\nSummary misses with DL [Total accesses " env.accessCounter
            (fun p => p.ll.misses)
          ++ env.policyTable "\n\nSummary misses considering only D1 [Total accesses "
            env.accessCounter (fun p => p.d1.misses) else [])

/-- `fprint_CC_table_and_calc_totals`: what it writes. -/
def fprintCCTable (ccTable : OSet CodeLoc LineCC) : Except Abort Text := do
  let (lines, _) ← ccTable.iterate
  let p := lines.foldl env.printLineCC ⟨env.header, none, none, zeroTotals⟩
  return p.out ++ showS "summary:"
    ++ (env.counts p.totals).flatMap (fun n => ' ' :: showLlu n) ++ ['\n'] ++ env.printStats

/-! ## The end of the file -/

/-- The last line of a text of several lines. -/
def EndsIn (last f : Text) : Prop := ∃ before, f = before ++ '\n' :: (last ++ ['\n'])

theorem EndsIn.append {last f : Text} (h : EndsIn last f) (before : Text) :
    EndsIn last (before ++ f) := by
  obtain ⟨b, rfl⟩ := h
  exact ⟨before ++ b, (append_assoc ..).symm⟩

theorem endsIn_policyTable (title : String) (whole : ℕ) (count : Policy → ℕ) :
    EndsIn [' '] (env.policyTable title whole count) := by
  have hrows : policyIndices = [0, 1, 2] ++ [3] := rfl
  have hend : EndsIn [' '] (showS " \n" ++ showS " \n") := ⟨[' '], rfl⟩
  rw [policyTable, hrows, flatMap_append, flatMap_singleton]
  simp only [append_assoc]
  iterate 10 refine EndsIn.append ?_ _
  exact hend

/-- The file ends in a line of `print_stats`: the one with the throttle parameter, or a space. -/
theorem endsIn_fprintCCTable {ccTable : OSet CodeLoc LineCC} {f : Text}
    (h : env.fprintCCTable ccTable = .ok f) : EndsIn [' '] f ∨ EndsIn env.throttleLine f := by
  obtain ⟨⟨lines, t⟩, -, h⟩ := bind_eq_ok.mp h
  cases h
  cases hname : env.approach with
  | none =>
    right
    simp only [printStats, hname]
    exact ⟨_, append_assoc ..⟩
  | some name =>
    left
    refine EndsIn.append ?_ _
    simp only [printStats, hname]
    split_ifs
    · exact ((env.endsIn_policyTable ..).append _).append _
    · rw [append_nil]
      exact (env.endsIn_policyTable ..).append _
    · exact ((env.endsIn_policyTable ..).append _).append _
    · rw [append_nil]
      exact (env.endsIn_policyTable ..).append _

/-- The last line of a file is the last one that is read. -/
theorem EndsIn.readlines {last f : Text} (h : EndsIn last f) (hlast : '\n' ∉ last) :
    (readlines f).getLast? = some (CgMerge.cstr last) := by
  obtain ⟨before, rfl⟩ := h
  have hline : Text.lines (last ++ ['\n']) = [last] := Text.linesFrom_of_notMem hlast []
  rw [CgMerge.readlines, Text.lines_append, hline, map_append]
  exact getLast?_concat

theorem newline_notMem_throttleLine : '\n' ∉ env.throttleLine := by
  simp [throttleLine, showS, env.showF_newline]

end OutputEnv

/-- **`cg_merge` accepts no output file.**  It takes the summary line for the last one, and
`print_stats` always writes another. -/
theorem output_not_mergeable (env : OutputEnv) (ccTable : OSet CodeLoc LineCC) (f : Text)
    (h : env.fprintCCTable ccTable = .ok f) : ∀ cpf, parseCacheProfFile f ≠ .ok cpf := by
  intro cpf hcpf
  obtain ⟨desc, cmd, events, data, summary, hlayout⟩ := CgMerge.Layout.of_ok hcpf
  have hlast : (readlines f).getLast? = some summary := by
    rw [hlayout.lines_eq, ← cons_append, ← cons_append, ← append_assoc]
    exact getLast?_concat
  have hnot : ∀ last, OutputEnv.EndsIn last f → '\n' ∉ last →
      streqn (CgMerge.cstr last) "summary: " := by
    intro last hends hnl
    rw [hends.readlines hnl] at hlast
    exact Option.some.inj hlast ▸ hlayout.summary
  rcases env.endsIn_fprintCCTable h with hends | hends
  · exact Bool.false_ne_true (hnot _ hends (by decide))
  · exact Bool.false_ne_true (hnot _ hends env.newline_notMem_throttleLine)

/-- A run under LRU with cache simulation. -/
def lruOutput : OutputEnv where
  opts := ⟨.lruPolicy, 1 / 2, 0, 1024, by decide, false, "", fun _ => false, 0⟩
  cloCacheSim := true
  cloBranchSim := false
  I1desc := "32 B, 16 B, direct-mapped"
  D1desc := "32 B, 16 B, direct-mapped"
  LLdesc := "64 B, 16 B, direct-mapped"
  exeName := "a.out"
  clientArgs := []
  policies := Policy.init ⟨.lruPolicy, 1 / 2, 0, 1024, by decide, false, "", fun _ => false, 0⟩
  dataBlocks := 0
  accessCounter := 0
  showF _ := "0.500000".toList
  showF_newline _ := by decide

/-- The table of a run that has executed one instruction. -/
def oneLine : OSet CodeLoc LineCC :=
  { OSet.create ccTableSpec with
    root := AvlTree.leaf { LineCC.new ⟨"a.c", "main", 1⟩ with Ir := ⟨1, 1, 1⟩ }, nElems := 1 }

theorem output_not_mergeable_lru :
    ∃ f, lruOutput.fprintCCTable oneLine = .ok f ∧ ∀ cpf, parseCacheProfFile f ≠ .ok cpf :=
  ⟨_, rfl, output_not_mergeable lruOutput oneLine _ rfl⟩

/-- What the reader says of that file. -/
theorem output_extraneous :
    (OSet.create ccTableSpec).insert { LineCC.new ⟨"a.c", "main", 1⟩ with Ir := ⟨1, 1, 1⟩ }
        = .ok oneLine
      ∧ ∃ f, lruOutput.fprintCCTable oneLine = .ok f
        ∧ parseCacheProfFile f
          = .error (.parseError "parse_CacheProfFile: extraneous content after SUMMARY line") := by
  refine ⟨rfl, _, rfl, ?_⟩
  rfl

end Valgrind.Cachegrind
