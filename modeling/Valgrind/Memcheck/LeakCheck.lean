import Valgrind.Foundations.Bisection
import Valgrind.Memcheck.MallocWrappers

/-!
# Memcheck/LeakCheck — `memcheck/mc_leakcheck.c`: marking the blocks that can be reached

The root areas and the registers are scanned for words that point into a block; such blocks are
pushed onto the mark stack.  Then blocks are popped and scanned in turn, until the stack is empty.
A block is `Reachable` if pointers to the first bytes of blocks lead to it, `Possible` if a pointer
into the middle of a block is needed.

The client's memory is seen through the four questions the scan asks of it (`Client`).
-/

namespace Valgrind.Memcheck

/-! ## The client's memory -/

/-- `SM_SIZE`. -/
def smSize : ℕ := 65536

/-- `VKI_PAGE_SIZE`. -/
def pageSize : ℕ := 4096

/-- What the scan asks of the client's memory.  The shadow memory has one entry for `smSize` bytes,
and none where no byte is addressable; mappings are made of pages. -/
structure Client where
  /-- `MC_(is_within_valid_secondary)`. -/
  isWithinValidSecondary : ℕ → Bool
  /-- `VG_(am_is_valid_for_client)`, of an address and a length, for reading. -/
  amIsValidForClient : ℕ → ℕ → Bool
  /-- `MC_(is_valid_aligned_word)`. -/
  isValidAlignedWord : ℕ → Bool
  /-- The word at an address; `none` where reading it raises a signal. -/
  load : ℕ → Option ℕ
  secondary_eq : ∀ a b, a / smSize = b / smSize →
    isWithinValidSecondary a = isWithinValidSecondary b
  valid_secondary : ∀ a, isValidAlignedWord a → isWithinValidSecondary a
  readable_eq : ∀ a b, a % 8 = 0 → b % 8 = 0 → a / pageSize = b / pageSize →
    amIsValidForClient a 8 = amIsValidForClient b 8

/-! ## The search -/

/-- `Reachedness`. -/
inductive Reachedness where
  | unreached
  | indirectLeak
  | possible
  | reachable
deriving DecidableEq, Repr

/-- `LeakCheckHeuristic`. -/
inductive LeakCheckHeuristic where
  | none
  | stdString
  | length64
  | newArray
  | multipleInheritance
deriving DecidableEq, Repr

/-- `LC_Extra`; the union is a number in both its uses. -/
structure LCExtra where
  state : Reachedness
  pending : Bool
  heuristic : LeakCheckHeuristic
  iorC : ℕ
deriving DecidableEq, Repr

/-- What a leak search does not change: the memory, `lc_chunks` and the heuristics. -/
structure LeakSearch where
  client : Client
  /-- `lc_chunks`. -/
  chunks : List Chunk
  /-- Whether `detect_memory_leaks_last_heuristics` is not empty. -/
  heuristics : Bool
  /-- `heuristic_reachedness`, of a pointer and the number of the block it points into. -/
  heuristicReachedness : ℕ → ℕ → LeakCheckHeuristic

/-- What it changes: `lc_extras`, by block number, and `lc_markstack`, its top first. -/
structure LeakState where
  extras : ℕ → LCExtra
  markstack : List ℕ

namespace LeakState

/-- The state in which `MC_(detect_memory_leaks)` begins to scan. -/
def init : LeakState := ⟨fun _ => ⟨.unreached, false, .none, 0⟩, []⟩

/-- A block's entry is changed. -/
def modify (st : LeakState) (chNo : ℕ) (f : LCExtra → LCExtra) : LeakState :=
  { st with extras := Function.update st.extras chNo (f (st.extras chNo)) }

end LeakState

namespace LeakSearch

variable (s : LeakSearch)

/-- `find_chunk_for`; `none` stands for -1.  A block of size 0 is treated as one of size 1. -/
def findChunkFor (ptr : ℕ) : Except Abort (Option ℕ) :=
  let side (mid : ℤ) : Except (Option Abort) Ordering :=
    match s.chunks[mid.toNat]? with
    | none => .error (some .nullPointer)
    | some ch =>
      let hi := if ch.szB = 0 then ch.data + ch.szB + 1 else ch.data + ch.szB
      .ok (if ptr < ch.data then .lt else if ptr ≥ hi then .gt else .eq)
  match Bisection.bisect side none 0 (s.chunks.length - 1) with
  | .ok mid => .ok (some mid.toNat)
  | .error none => .ok none
  | .error (some e) => .error e

/-- `lc_is_a_chunk_ptr`: the number of the block and the block. -/
def lcIsAChunkPtr (ptr : ℕ) : Except Abort (Option (ℕ × Chunk)) :=
  if ¬ s.client.amIsValidForClient ptr 1 then .ok none
  else do
    match ← s.findChunkFor ptr with
    | none => return none
    | some chNo =>
      match s.chunks[chNo]? with
      | none => .error .assertion
      | some ch =>
        if ¬ ptr ≥ ch.data then .error .assertion
        else if ¬ ptr < ch.data + ch.szB + (if ch.szB = 0 then 1 else 0) then .error .assertion
        else .ok (some (chNo, ch))

/-! ## The mark stack -/

/-- `lc_push`. -/
def lcPush (chNo : ℕ) (st : LeakState) : Except Abort LeakState :=
  if ¬ (st.extras chNo).pending then
    if ¬ st.markstack.length < s.chunks.length then .error .assertion
    else .ok ({ st with markstack := chNo :: st.markstack }.modify chNo fun ex =>
      { ex with pending := true })
  else .ok st

/-- `lc_pop`. -/
def lcPop (st : LeakState) : Except Abort (Option (ℕ × LeakState)) :=
  match st.markstack with
  | [] => .ok none
  | chNo :: rest =>
    if ¬ (st.markstack.length ≤ s.chunks.length) then .error .assertion
    else if ¬ (st.extras chNo).pending then .error .assertion
    else .ok (some (chNo, { st with markstack := rest }.modify chNo fun ex =>
      { ex with pending := false }))

/-- How a block is reached by a pointer into it: the heuristic that makes it count as one to the
start, and whether it counts as one. -/
def chViaPtr (ptr chNo : ℕ) (ch : Chunk) (ex : LCExtra) : LCExtra × Reachedness :=
  if ptr = ch.data then (ex, .reachable)
  else if s.heuristics then
    let h := s.heuristicReachedness ptr chNo
    ({ ex with heuristic := h }, if h ≠ .none then .reachable else .possible)
  else (ex, .possible)

/-- `lc_push_without_clique_if_a_chunk_ptr`. -/
def lcPushWithoutClique (ptr : ℕ) (isPriorDefinite : Bool) (st : LeakState) :
    Except Abort LeakState := do
  match ← s.lcIsAChunkPtr ptr with
  | none => return st
  | some (chNo, ch) =>
    let ex := st.extras chNo
    if ex.state = .reachable then
      if ex.heuristic ≠ .none ∧ ptr = ch.data then
        return st.modify chNo fun ex => { ex with heuristic := .none }
      else return st
    else
      let (ex, via) := s.chViaPtr ptr chNo ch ex
      if via = .reachable ∧ isPriorDefinite then
        s.lcPush chNo (st.modify chNo fun _ => { ex with state := .reachable })
      else if ex.state = .unreached then
        s.lcPush chNo (st.modify chNo fun _ => { ex with state := .possible })
      else return st.modify chNo fun _ => ex

/-- `lc_push_with_clique_if_a_chunk_ptr`. -/
def lcPushWithClique (ptr clique curClique : ℕ) (st : LeakState) : Except Abort LeakState := do
  if ¬ clique < s.chunks.length then .error .assertion
  match ← s.lcIsAChunkPtr ptr with
  | none => return st
  | some (chNo, ch) =>
    if (st.extras chNo).state = .unreached ∧ chNo ≠ clique then
      let st ← s.lcPush chNo st
      let st := st.modify clique fun ex =>
        { ex with iorC := (ex.iorC + ch.szB + (st.extras chNo).iorC) % 2 ^ 64 }
      return st.modify chNo fun ex => { ex with state := .indirectLeak, iorC := curClique }
    else return st

/-- `lc_push_if_a_chunk_ptr`; no clique stands for -1. -/
def lcPushIfAChunkPtr (ptr : ℕ) (clique : Option ℕ) (curClique : ℕ) (isPriorDefinite : Bool)
    (st : LeakState) : Except Abort LeakState :=
  match clique with
  | none => s.lcPushWithoutClique ptr isPriorDefinite st
  | some clique => s.lcPushWithClique ptr clique curClique st

end LeakSearch

/-! ## Scanning memory -/

/-- `VG_ROUNDDN`. -/
def roundDn (p a : ℕ) : ℕ := p / a * a

/-- `VG_ROUNDUP`. -/
def roundUp (p a : ℕ) : ℕ := roundDn ((p + a - 1) % 2 ^ 64) a

namespace Client

variable (c : Client)

/-- Where the scan begins: an unaddressable or unreadable start is skipped. -/
def scanStart (start : ℕ) : ℕ :=
  let ptr := roundUp start 8
  if ¬ c.isWithinValidSecondary ptr then roundUp (ptr + 1) smSize
  else if ¬ c.amIsValidForClient ptr 8 then roundUp (ptr + 1) pageSize
  else ptr

/-- One turn of the scan: the word read, if any, and where it goes on.  After a signal it goes on
behind the word that raised it. -/
def scanStep (ptr : ℕ) : Option ℕ × ℕ :=
  if ptr % smSize = 0 ∧ ¬ c.isWithinValidSecondary ptr then (none, roundUp (ptr + 1) smSize)
  else if ptr % pageSize = 0 ∧ ¬ c.amIsValidForClient ptr 8 then
    (none, (ptr + pageSize) % 2 ^ 64)
  else (if c.isValidAlignedWord ptr then c.load ptr else none, (ptr + 8) % 2 ^ 64)

/-- The loop of `lc_scan_memory`; `visit` is what is done with a word.  Each turn goes on behind
`ptr`, so that as much fuel as there are words suffices; the addresses wrap only in a loop that
never ends. -/
def scanLoop {σ : Type} (visit : ℕ → σ → Except Abort σ) (stop : ℕ) :
    ℕ → ℕ → σ → Except Abort σ
  | 0, ptr, st => if ptr < stop then .error .diverges else .ok st
  | fuel + 1, ptr, st =>
    if ptr < stop then
      match c.scanStep ptr with
      | (none, next) => scanLoop visit stop fuel next st
      | (some addr, next) => do
        let st ← visit addr st
        scanLoop visit stop fuel next st
    else .ok st

/-- `lc_scan_memory`. -/
def lcScanMemory {σ : Type} (visit : ℕ → σ → Except Abort σ) (start len : ℕ) (st : σ) :
    Except Abort σ :=
  let stop := roundDn ((start + len) % 2 ^ 64) 8
  c.scanLoop visit stop (stop / 8) (c.scanStart start) st

end Client

/-! ## The marking phase -/

namespace LeakSearch

variable (s : LeakSearch)

/-- `lc_process_markstack`. -/
def lcProcessMarkstack (clique : Option ℕ) : ℕ → LeakState → Except Abort LeakState
  | 0, st => if st.markstack = [] then .ok st else .error .diverges
  | fuel + 1, st => do
    match ← s.lcPop st with
    | none => return st
    | some (top, st) =>
      match s.chunks[top]? with
      | none => .error .assertion
      | some ch =>
        let isPriorDefinite := (st.extras top).state ≠ .possible
        let st ← s.client.lcScanMemory
          (fun ptr => s.lcPushIfAChunkPtr ptr clique top isPriorDefinite) ch.data ch.szB st
        lcProcessMarkstack clique fuel st

/-- `scan_memory_root_set` over the accepted segments, each a start and a size. -/
def scanMemoryRootSet (roots : List (ℕ × ℕ)) (st : LeakState) : Except Abort LeakState :=
  roots.foldlM (fun st seg =>
    s.client.lcScanMemory (fun ptr => s.lcPushIfAChunkPtr ptr none 0 true) seg.1 seg.2 st) st

/-- `VG_(apply_to_GP_regs)` with `lc_push_if_a_chunk_ptr_register`. -/
def scanRegisters (regs : List ℕ) (st : LeakState) : Except Abort LeakState :=
  regs.foldlM (fun st ptr => s.lcPushWithoutClique ptr true st) st

/-- The marking phase of `MC_(detect_memory_leaks)`. -/
def markReachable (roots : List (ℕ × ℕ)) (regs : List ℕ) (fuel : ℕ) : Except Abort LeakState := do
  let st ← s.scanMemoryRootSet roots .init
  let st ← s.scanRegisters regs st
  s.lcProcessMarkstack none fuel st

end LeakSearch

end Valgrind.Memcheck
