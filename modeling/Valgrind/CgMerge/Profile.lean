import Valgrind.Core.WordFM
import Valgrind.Foundations.Text

/-!
# CgMerge/Profile — `cachegrind/cg_merge.c`: reading, merging and writing profiles

`cg_merge` reads profiles that Cachegrind has written, adds them up and writes the sum.  A profile
maps a file and function to a map from line numbers to vectors of counts.

The maps are the file's own copy of `WordFM`.  It differs from `m_wordfm.c` in the iterator, which
pushes a child to be visited where that one goes on with it (`mergeLoop`).  Maps, file names and
counts are reached through pointers that nobody else holds (`merge_CacheProfInfo` copies what it
takes over), so they are values here; writing through such a pointer is `assign`.  `malloc` is taken
to succeed, and `UWord` to have 64 bits.
-/

namespace Valgrind.CgMerge

open AvlTree (nil node)

variable {α κ ν σ : Type}

/-- The bytes of a file or of a C string. -/
abbrev Text := List Char

/-- How `cg_merge` ends without writing a profile. -/
inductive Exit where
  /-- `parseError`. -/
  | parseError (msg : String)
  /-- `barf`. -/
  | barf (msg : String)
  /-- A failed assertion, or a NULL pointer. -/
  | abort (a : Abort)
deriving DecidableEq, Repr

/-- A call of the map code. -/
def call : Except Abort α → Except Exit α
  | .ok a => .ok a
  | .error e => .error (.abort e)

/-! ## Characters and strings -/

/-- `isspace` in the C locale. -/
def isspace (c : Char) : Bool := c = ' ' ∨ 9 ≤ c.toNat ∧ c.toNat ≤ 13

/-- The C string in a buffer: what lies before the first NUL. -/
def cstr (s : Text) : Text := s.takeWhile (· ≠ '\x00')

/-- What the calls of `readline` return until end of file. -/
def readlines (s : Text) : List Text := (Text.lines s).map cstr

/-- `streqn(line, lit, strlen(lit))`. -/
def streqn (line : Text) (lit : String) : Bool := lit.toList.isPrefixOf line

/-- `isdigit(line[0])`. -/
def startsDigit : Text → Bool
  | [] => false
  | c :: _ => c.isDigit

/-- `strcmp`, of which only the sign is specified. -/
def strcmp : Text → Text → ℤ
  | [], [] => 0
  | [], _ :: _ => -1
  | _ :: _, [] => 1
  | a :: s, b :: t => if a < b then -1 else if b < a then 1 else strcmp s t

/-- `printf("%ld")` and `printf("%lld")` of an unsigned 64-bit number. -/
def showLong (n : ℕ) : Text :=
  if n < 2 ^ 63 then Nat.toDigits 10 n else '-' :: Nat.toDigits 10 (2 ^ 64 - n)

/-! ## Data -/

/-- `FileFn`. -/
@[ext]
structure FileFn where
  fiName : Text
  fnName : Text
deriving DecidableEq

/-- `Counts`. -/
abbrev Counts := List ℕ

/-- Line numbers to counts. -/
abbrev InnerMap := WordFM Unit UWord Counts

/-- Files and functions to inner maps. -/
abbrev OuterMap := WordFM Unit FileFn InnerMap

/-- `CacheProfFile`.  Its `summary_line` is NULL except inside `parse_CacheProfFile`. -/
structure CacheProfFile where
  descLines : List Text
  cmdLine : Text
  eventsLine : Text
  nEvents : ℕ
  outerMap : OuterMap
  summary : Counts

/-- `cmp_FileFn`. -/
def cmpFileFn (ff1 ff2 : FileFn) : ℤ :=
  let r := strcmp ff1.fiName ff2.fiName
  if r = 0 then strcmp ff1.fnName ff2.fnName else r

/-- `cmp_unboxed_UWord`. -/
def cmpUnboxedUWord (u1 u2 : UWord) : ℤ :=
  if u1 < u2 then -1
  else if u1 > u2 then 1
  else 0

/-! ## Maps -/

/-- `lookupFM`: the value found. -/
def getFM (fm : WordFM Unit κ ν) (k : κ) : Option ν := (fm.lookupFM k).map Prod.snd

/-- `addToFM`. -/
def addFM (fm : WordFM Unit κ ν) (k : κ) (v : ν) : Except Exit (WordFM Unit κ ν) := do
  let (_, fm) ← call (fm.addToFM () k v)
  return fm

/-- Write `v` through the value pointer that `lookupFM` returned for `k`. -/
def assign (fm : WordFM Unit κ ν) (k : κ) (v : ν) : WordFM Unit κ ν :=
  { fm with root := fm.root.map fun n => if fm.cmp n.key k = 0 then { n with val := v } else n }

/-- The length of the left spine. -/
def spine : AvlTree α → ℕ
  | nil => 0
  | node l _ _ _ => spine l + 1

/-- The rounds that the loop of `nextIterFM` takes. -/
def rounds : IterStack α → ℕ
  | [] => 1
  | (t, .one) :: _ => spine t + 1
  | (node _ _ _ r, .three) :: st => if r.isNil then rounds st + 1 else spine r + 2
  | _ :: _ => 1

/-- The `while` loop of `nextIterFM`, with the number of rounds it may take. -/
def mergeLoop : ℕ → IterStack α → Except Abort (Option α × IterStack α)
  | 0, _ => .error .diverges
  | fuel + 1, st => do
    match ← stackPop st with
    | none => return (none, st)
    | some ((nil, _), _) => .error .nullPointer
    | some ((node l x b r, .one), st) =>
      let st ← stackPush (node l x b r) .two st
      let st ← if l.isNil then pure st else stackPush l .one st
      mergeLoop fuel st
    | some ((node l x b r, .two), st) => return (some x, ← stackPush (node l x b r) .three st)
    | some ((node _ _ _ r, .three), st) =>
      let st ← if r.isNil then pure st else stackPush r .one st
      mergeLoop fuel st

/-- `nextIterFM`. -/
def nextIterFM (fm : WordFM Unit κ ν) : Except Abort (Option (κ × ν) × WordFM Unit κ ν) := do
  let (n, stack) ← mergeLoop (rounds fm.stack) fm.stack
  return (n.map FMNode.binding, { fm with stack })

/-- The loop `while (nextIterFM(fm, &k, &v)) body(k, v)`, with the number of rounds it may take. -/
def forLoop (body : σ → κ × ν → Except Exit σ) : ℕ → WordFM Unit κ ν → σ → Except Exit σ
  | 0, _, _ => .error (.abort .diverges)
  | fuel + 1, fm, s => do
    match ← call (nextIterFM fm) with
    | (none, _) => return s
    | (some b, fm) => forLoop body fuel fm (← body s b)

/-- `initIterFM`, followed by that loop. -/
def forFM (fm : WordFM Unit κ ν) (body : σ → κ × ν → Except Exit σ) (s : σ) : Except Exit σ := do
  forLoop body (fm.root.toList.length + 1) (← call fm.initIterFM) s

/-! ## Parsing -/

/-- `parse_ULong`: the number, if there is one, and where the text goes on. -/
def parseULong (str : Text) : Option ℕ × Text :=
  let ptr := str.dropWhile isspace
  if startsDigit ptr then
    (some ((ptr.takeWhile Char.isDigit).foldl (fun u64 c => (u64 * 10 + Text.digitVal c) % 2 ^ 64) 0),
      ptr.dropWhile Char.isDigit)
  else (none, ptr)

/-- The loop of `splitUpCountsLine`, with the number of rounds it may take. -/
def parseCounts : ℕ → Text → List ℕ × Text
  | 0, str => ([], str)
  | fuel + 1, str =>
    match parseULong str with
    | (none, ptr) => ([], ptr)
    | (some n, ptr) =>
      let (ns, str) := parseCounts fuel ptr
      (n :: ns, str)

/-- The numbers of a line, which `splitUpCountsLine` has checked to be nothing else. -/
def parseCountsLine (str : Text) : Except Exit (List ℕ) :=
  let (ns, rest) := parseCounts (str.length + 1) str
  if rest ≠ [] then .error (.parseError "garbage in counts line") else .ok ns

/-- `splitUpCountsLine` with `lnno` not NULL. -/
def splitUpCountsLine (str : Text) : Except Exit (UWord × Counts) := do
  match ← parseCountsLine str with
  | lnno :: c :: cs => return (lnno, c :: cs)
  | _ => .error (.parseError "too few counts in count line")

/-- `splitUpCountsLine` with `lnno` NULL. -/
def splitUpSummaryLine (str : Text) : Except Exit Counts := do
  match ← parseCountsLine str with
  | [] => .error (.parseError "too few counts in count line")
  | cs => return cs

/-- `addCounts`. -/
def addCounts (counts1 counts2 : Counts) : Except Exit Counts :=
  if counts1.length ≠ counts2.length then
    .error (.parseError "addCounts: inconsistent number of counts")
  else .ok (List.zipWith (fun a b => (a + b) % 2 ^ 64) counts1 counts2)

/-- `addCountsToMap`. -/
def addCountsToMap (countsMap : InnerMap) (lnno : UWord) (newCounts : Counts) :
    Except Exit InnerMap :=
  match getFM countsMap lnno with
  | some oldCounts => do return assign countsMap lnno (← addCounts oldCounts newCounts)
  | none => addFM countsMap lnno newCounts

/-- The part of `handle_counts` that updates the maps. -/
def addToOuterMap (outerMap : OuterMap) (topKey : FileFn) (lnno : UWord) (newCounts : Counts) :
    Except Exit OuterMap :=
  match getFM outerMap topKey with
  | some countsMap => do
    return assign outerMap topKey (← addCountsToMap countsMap lnno newCounts)
  | none => do
    let countsMap := WordFM.newFM cmpUnboxedUWord
    let outerMap ← addFM outerMap topKey countsMap
    return assign outerMap topKey (← addCountsToMap countsMap lnno newCounts)

/-- `handle_counts`. -/
def handleCounts (cpf : CacheProfFile) (fi fn newCountsStr : Text) : Except Exit CacheProfFile := do
  let (lnno, newCounts) ← splitUpCountsLine newCountsStr
  if newCounts.length ≠ cpf.nEvents then .error (.parseError "# counts doesn't match # events")
  else
    let outerMap ← addToOuterMap cpf.outerMap ⟨fi, fn⟩ lnno newCounts
    return { cpf with outerMap, summary := ← addCounts cpf.summary newCounts }

/-- The number of places where a space is followed by a letter. -/
def countEvents : Text → ℕ
  | c :: d :: s => (if c = ' ' ∧ d.isAlpha then 1 else 0) + countEvents (d :: s)
  | _ => 0

/-- The loop over the lines between the events line and the summary line: the profile, the summary
line and the lines after it. -/
def parseData (currFl currFn : Text) (cpf : CacheProfFile) :
    List Text → Except Exit (CacheProfFile × Text × List Text)
  | [] => .error (.parseError "parse_CacheProfFile: eof before SUMMARY line")
  | line :: rest =>
    if startsDigit line then do
      let cpf ← handleCounts cpf currFl currFn line
      parseData currFl currFn cpf rest
    else if streqn line "fn=" then parseData currFl (line.drop 3) cpf rest
    else if streqn line "fl=" then parseData (line.drop 3) currFn cpf rest
    else if streqn line "summary: " then .ok (cpf, line, rest)
    else .error (.parseError "parse_CacheProfFile: unexpected line in main data")

/-- `parse_CacheProfFile` from the summary line on. -/
def parseSummary (cpf : CacheProfFile) (summaryLine : Text) (rest : List Text) :
    Except Exit CacheProfFile :=
  if rest ≠ [] then
    .error (.parseError "parse_CacheProfFile: extraneous content after SUMMARY line")
  else do
    let summaryRead ← splitUpSummaryLine (summaryLine.drop 8)
    if summaryRead.length ≠ cpf.nEvents then
      .error (.parseError "parse_CacheProfFile: wrong # counts in SUMMARY line")
    else if summaryRead ≠ cpf.summary then
      .error (.parseError "parse_CacheProfFile: computed vs stated SUMMARY counts mismatch")
    else return cpf

/-- `parse_CacheProfFile` from the cmd line on. -/
def parseHeader (descLines : List Text) : List Text → Except Exit CacheProfFile
  -- At end of file `line` is NULL, and `streqn` reads through it.
  | [] => .error (.abort .nullPointer)
  | cmdLine :: rest =>
    if !streqn cmdLine "cmd: " then
      .error (.parseError "parse_CacheProfFile: no CMD line present")
    else match rest with
      | [] => .error (.parseError "parse_CacheProfFile: eof before EVENTS line")
      | eventsLine :: rest =>
        if !streqn eventsLine "events: " then
          .error (.parseError "parse_CacheProfFile: no EVENTS line present")
        else do
          let nEvents := countEvents (eventsLine.drop 6)
          let cpf := { descLines, cmdLine, eventsLine, nEvents,
                       outerMap := WordFM.newFM cmpFileFn, summary := List.replicate nEvents 0 }
          let (cpf, summaryLine, rest) ← parseData "???".toList "???".toList cpf rest
          parseSummary cpf summaryLine rest

/-- `parse_CacheProfFile`. -/
def parseCacheProfFile (s : Text) : Except Exit CacheProfFile :=
  let (descLines, rest) := (readlines s).span (streqn · "desc: ")
  if descLines = [] then .error (.parseError "parse_CacheProfFile: no DESC lines present")
  else parseHeader descLines rest

/-! ## Writing -/

/-- `showCounts`. -/
def showCounts (c : Counts) : Text := c.flatMap fun n => showLong n ++ [' ']

/-- The body of the inner loop of `show_CacheProfFile`. -/
def showLine (f : Text) (b : UWord × Counts) : Except Exit Text :=
  .ok (f ++ showLong b.1 ++ "   ".toList ++ showCounts b.2 ++ ['\n'])

/-- The body of its outer loop. -/
def showFileFn (f : Text) (b : FileFn × InnerMap) : Except Exit Text :=
  forFM b.2 showLine
    (f ++ "fl=".toList ++ b.1.fiName ++ ['\n'] ++ "fn=".toList ++ b.1.fnName ++ ['\n'])

/-- `show_CacheProfFile`: what it writes. -/
def showCacheProfFile (cpf : CacheProfFile) : Except Exit Text := do
  let f := Text.unlines (cpf.descLines ++ [cpf.cmdLine, cpf.eventsLine])
  let f ← forFM cpf.outerMap showFileFn f
  return f ++ "summary:".toList ++ (cpf.summary.flatMap fun n => ' ' :: showLong n) ++ ['\n']

/-! ## Merging -/

/-- The body of the inner loop of `merge_CacheProfInfo`. -/
def mergeLine (doVal : InnerMap) (b : UWord × Counts) : Except Exit InnerMap :=
  match getFM doVal b.1 with
  | none => addFM doVal b.1 b.2
  | some diVal => do return assign doVal b.1 (← addCounts diVal b.2)

/-- `dopy_InnerMap`; a copy of counts is equal to them. -/
def dopyInnerMap (innerMap : InnerMap) : Except Exit InnerMap :=
  call (innerMap.dopyFM none none fun _ => ())

/-- The body of the outer loop. -/
def mergeFileFn (outerMap : OuterMap) (b : FileFn × InnerMap) : Except Exit OuterMap :=
  match getFM outerMap b.1 with
  | none => do addFM outerMap b.1 (← dopyInnerMap b.2)
  | some doVal => do return assign outerMap b.1 (← forFM b.2 mergeLine doVal)

/-- `merge_CacheProfInfo`. -/
def mergeCacheProfInfo (dst src : CacheProfFile) : Except Exit CacheProfFile :=
  if dst.eventsLine ≠ src.eventsLine then
    .error (.barf
      "\"events:\" line of most recent file does not match those previously processed")
  else do
    let outerMap ← forFM src.outerMap mergeFileFn dst.outerMap
    return { dst with outerMap, summary := ← addCounts dst.summary src.summary }

end Valgrind.CgMerge
