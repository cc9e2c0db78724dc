import Valgrind.Core.LibcAssert
import Valgrind.Foundations.AvlTree
import Valgrind.Foundations.SortedList

/-!
# Core/TreeIterator — the iterator stack of `m_oset.c`, `m_wordfm.c` and `cg_merge.c`

An iteration is an in-order traversal with an explicit stack of 32 slots.  Each node is pushed
three times; its number on the stack says how far it has been dealt with.

Two readings of a stack carry all proofs: `rest`, the values still to come, and `need`, the number
of slots the rest of the iteration will use.  A call of `Next` takes the head off the first and
leaves it open whether the second exceeds the 32 slots (`Advances`), so an iteration runs to its end
iff the slots suffice at its start (`drain_spec`).
-/

namespace Valgrind

open AvlTree Nat
open List hiding nil
open SortedList (Cut)

variable {α β σ : Type} {t : AvlTree α} {s : σ} {fuel : ℕ}

/-- The numbers `1`, `2` and `3` on `numStack`. -/
inductive Visit where
  /-- The subtree is still untouched. -/
  | one
  /-- The left subtree is done. -/
  | two
  /-- The left subtree and the node are done. -/
  | three
deriving DecidableEq, Repr

/-- `nodeStack` and `numStack` up to `stackTop`, the top first. -/
abbrev IterStack (α : Type) := List (AvlTree α × Visit)

variable {st : IterStack α} {e : AvlTree α × Visit}

/-- `STACK_MAX`, `WFM_STKMAX`. -/
def stackMax : ℕ := 32

/-- `stackPush`. -/
def stackPush (n : AvlTree α) (i : Visit) (st : IterStack α) : Except Abort (IterStack α) :=
  if st.length < stackMax then .ok ((n, i) :: st) else .error .assertion

/-- `stackPop`: the entry at the top and the stack without it. -/
def stackPop (st : IterStack α) : Except Abort (Option ((AvlTree α × Visit) × IterStack α)) :=
  if st.length ≤ stackMax then
    match st with
    | [] => .ok none
    | e :: st => .ok (some (e, st))
  else .error .assertion

/-- The loop at the label `case_1`: push a node and its left spine. -/
def pushSpine : AvlTree α → IterStack α → Except Abort (IterStack α)
  | nil, _ => .error .nullPointer
  | node l x b r, st => do
    let st ← stackPush (node l x b r) .two st
    if l.isNil then return st else pushSpine l st

/-- The `while` loop of `OSetGen_Next` and `nextIterFM`, with the number of rounds it may take. -/
def nextLoop : ℕ → IterStack α → Except Abort (Option α × IterStack α)
  | 0, _ => .error .diverges
  | fuel + 1, st => do
    match ← stackPop st with
    | none => return (none, st)
    | some ((nil, _), _) => .error .nullPointer
    | some ((n, .one), st) => nextLoop fuel (← pushSpine n st)
    | some ((node l x b r, .two), st) => return (some x, ← stackPush (node l x b r) .three st)
    | some ((node _ _ _ r, .three), st) =>
      if r.isNil then nextLoop fuel st else nextLoop fuel (← pushSpine r st)

/-- `OSetGen_Next`, `nextIterFM`: a node that is done leaves the stack, so two rounds more than
there are entries suffice. -/
def iterNext (st : IterStack α) : Except Abort (Option α × IterStack α) :=
  nextLoop (st.length + 2) st

/-- `ResetIter`, `initIterFM`. -/
def iterReset (root : AvlTree α) : Except Abort (IterStack α) :=
  if root.isNil then .ok [] else stackPush root .one []

/-- The search of `ResetIterAt` and `initIterAtFM`, where `cut` compares the key to start at with a
node: what it leaves to its right it pushes. -/
def seekSpine (cut : α → Ordering) : AvlTree α → IterStack α → Except Abort (IterStack α)
  | nil, st => .ok st
  | node l x b r, st =>
    match cut x with
    | .eq => stackPush (node l x b r) .two st
    | .lt => do seekSpine cut l (← stackPush (node l x b r) .two st)
    | .gt => seekSpine cut r st

/-- Call `next` until it is exhausted, at most the given number of times. -/
def drain (next : σ → Except Abort (Option β × σ)) : ℕ → σ → Except Abort (List β × σ)
  | 0, _ => .error .diverges
  | n + 1, s => do
    match ← next s with
    | (none, s) => return ([], s)
    | (some x, s) =>
      let (xs, s) ← drain next n s
      return (x :: xs, s)

/-- What every call keeps, an iteration keeps. -/
theorem drain_keeps {next : σ → Except Abort (Option β × σ)} {P : σ → Prop}
    (hnext : ∀ s o s', next s = .ok (o, s') → P s → P s') :
    ∀ {fuel : ℕ} {s s' : σ} {xs : List β}, drain next fuel s = .ok (xs, s') → P s → P s'
  | 0, _, _, _, h => nomatch h
  | fuel + 1, s, s', xs, h => by
    intro hs
    obtain ⟨⟨o, s₁⟩, hcall, h⟩ := bind_eq_ok.mp h
    have hs₁ := hnext s o s₁ hcall hs
    cases o with
    | none =>
      cases h
      exact hs₁
    | some x =>
      obtain ⟨⟨ys, s₂⟩, hrest, h⟩ := bind_eq_ok.mp h
      cases h
      exact drain_keeps hnext hrest hs₁

/-! ## What a stack still has to deliver, and what it needs for it -/

/-- The values an entry still has to deliver. -/
def pending : AvlTree α × Visit → List α
  | (t, .one) => t.toList
  | (nil, _) => []
  | (node _ x _ r, .two) => x :: r.toList
  | (node _ _ _ r, .three) => r.toList

/-- The values still to come. -/
def rest (st : IterStack α) : List α := st.flatMap pending

/-- The slots an entry will use at most, its own included. -/
def slots : AvlTree α × Visit → ℕ
  | (t, .one) => t.leftDepth
  | (nil, _) => 0
  | (node _ _ _ r, _) => max 1 r.leftDepth

/-- The slots the rest of the iteration will use. -/
def need : IterStack α → ℕ
  | [] => 0
  | e :: st => max (st.length + slots e) (need st)

/-- The stack fits its array and holds no NULL pointer. -/
structure Ready (st : IterStack α) : Prop where
  length_le : st.length ≤ stackMax
  ne_nil : ∀ e ∈ st, e.1 ≠ nil

@[simp] theorem rest_nil : rest ([] : IterStack α) = [] := rfl

@[simp] theorem rest_cons (e : AvlTree α × Visit) (st : IterStack α) :
    rest (e :: st) = pending e ++ rest st := rfl

theorem Ready.tail (h : Ready (e :: st)) : Ready st :=
  ⟨(le_succ _).trans h.length_le, fun e he => h.ne_nil e (mem_cons_of_mem _ he)⟩

theorem Ready.length_lt (h : Ready (e :: st)) :
    st.length < stackMax := h.length_le

theorem Ready.cons (h : Ready st) (hlt : st.length < stackMax) (ht : t ≠ nil) (i : Visit) :
    Ready ((t, i) :: st) :=
  ⟨hlt, forall_mem_cons.mpr ⟨ht, h.ne_nil⟩⟩

theorem Ready.pop (h : Ready (e :: st)) :
    stackPop (e :: st) = .ok (some (e, st)) := if_pos h.length_le

theorem leftDepth_pos (h : t ≠ nil) : 0 < t.leftDepth := by
  cases t with
  | nil => exact absurd rfl h
  | node l x b r => exact lt_of_lt_of_le (succ_pos _) (le_max_left _ _)

/-- Turning to a node's right subtree asks for no slot more than the node did. -/
theorem need_right {l r : AvlTree α} {x : α} {b : ℤ} (hr : r ≠ nil) :
    need ((r, .one) :: st) = need ((node l x b r, .three) :: st) := by
  have hpos : 1 ≤ r.leftDepth := leftDepth_pos hr
  simp only [need, slots, max_eq_right hpos]

/-- **The left spine is pushed iff its slots are there**; the stack then delivers the subtree next,
and its need is unchanged. -/
theorem pushSpine_spec (ht : t ≠ nil) (h : Ready st) :
    (∃ l x b r st', pushSpine t st = .ok ((node l x b r, .two) :: st')
      ∧ Ready ((node l x b r, .two) :: st')
      ∧ rest ((node l x b r, .two) :: st') = t.toList ++ rest st
      ∧ need ((node l x b r, .two) :: st') = need ((t, .one) :: st))
    ∨ pushSpine t st = .error .assertion ∧ stackMax < need ((t, .one) :: st) := by
  induction t generalizing st with
  | nil => exact absurd rfl ht
  | node l x b r ihl _ =>
    by_cases hlt : st.length < stackMax
    · have hready := h.cons hlt ht .two
      have hpush : stackPush (node l x b r) .two st = .ok ((node l x b r, .two) :: st) := if_pos hlt
      by_cases hl : l = nil
      · subst hl
        refine .inl ⟨nil, x, b, r, st, by simp [pushSpine, hpush, isNil],
          hready, by simp [pending], ?_⟩
        simp only [need, slots, leftDepth]
      · have hrun : pushSpine (node l x b r) st = pushSpine l ((node l x b r, .two) :: st) := by
          simp [pushSpine, hpush, isNil_iff, hl]
        have hneed : need ((l, .one) :: (node l x b r, .two) :: st)
            = need ((node l x b r, .one) :: st) := by
          simp only [need, slots, leftDepth, length_cons]
          omega
        rw [hrun, ← hneed]
        refine (ihl hl hready).imp ?_ id
        rintro ⟨l', x', b', r', st', hok, hready', hrest, hneed'⟩
        exact ⟨l', x', b', r', st', hok, hready', by simp [hrest, pending], hneed'⟩
    · have hpos := leftDepth_pos ht
      refine .inr ⟨by simp [pushSpine, stackPush, hlt], ?_⟩
      simp only [need, slots]
      omega

/-- A stack that has nothing left to deliver needs no slot it does not have. -/
theorem need_le_of_rest (h : Ready st) (hrest : rest st = []) : need st ≤ stackMax := by
  induction st with
  | nil => exact zero_le
  | cons e st ih =>
    rw [rest_cons, append_eq_nil_iff] at hrest
    refine max_le ?_ (ih h.tail hrest.2)
    have hlen := h.length_lt
    obtain ⟨_ | ⟨l, x, b, _ | ⟨rl, y, br, rr⟩⟩, _ | _ | _⟩ := e
    all_goals simp_all [pending, slots, leftDepth]
    all_goals omega

/-! ## A call of `Next` -/

/-- What a call that delivers the next value does to the stack. -/
structure Advance (st st' : IterStack α) : Prop where
  ready : Ready st'
  rest_eq : rest st' = (rest st).tail
  need_iff : need st' ≤ stackMax ↔ need st ≤ stackMax

/-- A call of `Next` delivers the head of `rest`, unless the slots do not suffice. -/
def Advances (next : σ → Except Abort (Option β × σ)) (stack : σ → IterStack α) (f : α → β) :
    Prop :=
  ∀ s, Ready (stack s) →
    (∃ s', next s = .ok ((rest (stack s)).head?.map f, s') ∧ Advance (stack s) (stack s'))
      ∨ next s = .error .assertion ∧ stackMax < need (stack s)

/-- A node whose left subtree is done is delivered. -/
theorem nextLoop_two {l r : AvlTree α} {x : α} {b : ℤ} (h : Ready ((node l x b r, .two) :: st))
    (fuel : ℕ) : nextLoop (fuel + 1) ((node l x b r, .two) :: st)
        = .ok (some x, (node l x b r, .three) :: st)
      ∧ Advance ((node l x b r, .two) :: st) ((node l x b r, .three) :: st) := by
  refine ⟨?_, h.tail.cons h.length_lt (by simp) _, rfl, Iff.rfl⟩
  simp [nextLoop, h.pop, stackPush, h.length_lt]

/-- After a spine has been pushed, its end is delivered. -/
theorem nextLoop_spine (ht : t ≠ nil) {st₀ : IterStack α} (h : Ready st)
    (hrest : rest st₀ = t.toList ++ rest st)
    (hneed : need ((t, .one) :: st) ≤ stackMax ↔ need st₀ ≤ stackMax) (fuel : ℕ) :
    (∃ st', (pushSpine t st >>= nextLoop (fuel + 1)) = .ok ((rest st₀).head?, st')
        ∧ Advance st₀ st')
      ∨ (pushSpine t st >>= nextLoop (fuel + 1)) = .error .assertion ∧ stackMax < need st₀ := by
  refine (pushSpine_spec ht h).imp ?_ ?_
  · rintro ⟨l, x, b, r, st', hok, hready, hrest', hneed'⟩
    obtain ⟨hnext, hready'', hrest'', hneed''⟩ := nextLoop_two hready fuel
    refine ⟨_, by rw [hok, ok_bind, hnext, hrest, ← hrest']; rfl, hready'', ?_, ?_⟩
    · rw [hrest'', hrest, hrest']
    · rw [hneed'', hneed', hneed]
  · rintro ⟨herr, hlt⟩
    exact ⟨by rw [herr, error_bind], by omega⟩

theorem nextLoop_spec (h : Ready st) (hf : st.length + 2 ≤ fuel) :
    (∃ st', nextLoop fuel st = .ok ((rest st).head?, st') ∧ Advance st st')
      ∨ nextLoop fuel st = .error .assertion ∧ stackMax < need st := by
  induction st generalizing fuel with
  | nil =>
    obtain ⟨fuel, rfl⟩ : ∃ n, fuel = n + 1 := ⟨fuel - 1, by omega⟩
    exact .inl ⟨[], rfl, h, rfl, Iff.rfl⟩
  | cons e st ih =>
    obtain ⟨fuel, rfl⟩ : ∃ n, fuel = n + 2 := ⟨fuel - 2, by omega⟩
    obtain ⟨_ | ⟨l, x, b, r⟩, i⟩ := e
    · exact absurd rfl (h.ne_nil _ mem_cons_self)
    cases i with
    | one =>
      have hrun : nextLoop (fuel + 2) ((node l x b r, .one) :: st)
          = (pushSpine (node l x b r) st >>= nextLoop (fuel + 1)) := by
        simp only [nextLoop, h.pop, ok_bind]
      rw [hrun]
      exact nextLoop_spine (by simp) h.tail rfl Iff.rfl fuel
    | two =>
      obtain ⟨hok, hadv⟩ := nextLoop_two h (fuel + 1)
      exact .inl ⟨_, hok, hadv⟩
    | three =>
      by_cases hr : r = nil
      · subst hr
        have hrun : nextLoop (fuel + 2) ((node l x b nil, .three) :: st)
            = nextLoop (fuel + 1) st := by
          simp only [nextLoop, h.pop, ok_bind, isNil, if_true]
        have hrest : rest ((node l x b nil, .three) :: st) = rest st := rfl
        have hneed : need ((node l x b nil, .three) :: st) ≤ stackMax ↔ need st ≤ stackMax := by
          have hlt := h.length_lt
          simp only [need, slots, leftDepth]
          omega
        rw [hrun, hrest]
        rw [length_cons] at hf
        refine (ih h.tail (show st.length + 2 ≤ fuel + 1 by omega)).imp ?_ ?_
        · rintro ⟨st', hok, hready, hrest', hneed'⟩
          exact ⟨st', hok, hready, hrest', hneed'.trans hneed.symm⟩
        · rintro ⟨herr, hlt⟩
          exact ⟨herr, by omega⟩
      · have hrun : nextLoop (fuel + 2) ((node l x b r, .three) :: st)
            = (pushSpine r st >>= nextLoop (fuel + 1)) := by
          simp only [nextLoop, h.pop, ok_bind, isNil_iff, hr, if_false]
        rw [hrun]
        exact nextLoop_spine hr h.tail rfl (by rw [need_right hr]) fuel

/-- **A call of `Next` delivers the next value in order, unless it lacks slots.** -/
theorem advances_iterNext : Advances (iterNext : IterStack α → _) id id := by
  intro st h
  simpa [iterNext] using nextLoop_spec h le_rfl

/-! ## Whole iterations -/

section Drain

variable {next : σ → Except Abort (Option β × σ)} {stack : σ → IterStack α} {f : α → β}

/-- **With enough slots, an iteration delivers all that is to come, in order**, and without them it
fails an assertion on the way. -/
theorem drain_spec (hadv : Advances next stack f) (h : Ready (stack s))
    (hf : (rest (stack s)).length < fuel) :
    (need (stack s) ≤ stackMax → ∃ s', drain next fuel s = .ok ((rest (stack s)).map f, s'))
      ∧ (stackMax < need (stack s) → drain next fuel s = .error .assertion) := by
  induction fuel generalizing s with
  | zero => exact absurd hf (not_lt_zero _)
  | succ fuel ih =>
    obtain ⟨s', hok, hready, hrest, hiff⟩ | ⟨herr, hlt⟩ := hadv s h
    · cases hr : rest (stack s) with
      | nil =>
        exact ⟨fun _ => ⟨s', by simp [drain, hok, hr]⟩,
          fun hlt => absurd (need_le_of_rest h hr) (not_le.mpr hlt)⟩
      | cons x xs =>
        rw [hr, tail_cons] at hrest
        obtain ⟨hall, hcut⟩ := ih hready (by rw [hrest]; simpa [hr] using hf)
        refine ⟨fun hneed => ?_, fun hneed => ?_⟩
        · obtain ⟨s'', hs''⟩ := hall (hiff.mpr hneed)
          exact ⟨s'', by simp [drain, hok, hr, hs'', hrest]⟩
        · simp [drain, hok, hr, hcut (by omega)]
    · exact ⟨fun hneed => absurd hlt (not_lt.mpr hneed), fun _ => by simp [drain, herr]⟩

/-! ## From the root on -/

theorem iterReset_ok (root : AvlTree α) :
    ∃ st, iterReset root = .ok st ∧ Ready st ∧ rest st = root.toList
      ∧ need st = root.leftDepth := by
  by_cases hr : root = nil
  · subst hr
    exact ⟨[], rfl, ⟨zero_le, by simp⟩, rfl, rfl⟩
  · refine ⟨[(root, .one)], ?_, ⟨by simp [stackMax], by simpa using hr⟩, by simp [pending], ?_⟩
    · simp [iterReset, isNil_iff, hr, stackPush, stackMax]
    · simp [need, slots]

/-- **A whole iteration delivers the tree's values in order if its left depth fits the stack**, and
fails an assertion if it does not. -/
theorem drain_root (hadv : Advances next stack f) (t : AvlTree α) (init : IterStack α → σ)
    (hinit : ∀ st, stack (init st) = st) :
    let iterate := iterReset t >>= fun st => drain next (t.toList.length + 1) (init st)
    (t.leftDepth ≤ stackMax → ∃ s', iterate = .ok (t.toList.map f, s'))
      ∧ (stackMax < t.leftDepth → iterate = .error .assertion) := by
  obtain ⟨st, hst, hready, hrest, hneed⟩ := iterReset_ok t
  dsimp only
  rw [hst, ok_bind, ← hneed, ← hrest]
  rw [← hinit st] at hready
  simpa only [hinit] using drain_spec hadv hready (lt_succ_self _)

/-! ## From a key on -/

/-- **The search leaves to come what is not before the cut**, and asks for no slot more than the
height of the tree. -/
theorem seekSpine_spec {cut : α → Ordering} (hcut : Cut cut t.toList) (h : Ready st)
    (hfit : st.length + t.height ≤ stackMax) :
    ∃ st', seekSpine cut t st = .ok st' ∧ Ready st'
      ∧ rest st' = t.toList.filter (cut · ≠ .gt) ++ rest st
      ∧ need st' ≤ max (st.length + t.height) (need st) := by
  induction t generalizing st with
  | nil => exact ⟨st, rfl, h, rfl, le_max_right _ _⟩
  | node l x b r ihl ihr =>
    rw [toList_node] at hcut ⊢
    simp only [height] at hfit ⊢
    have hdepth := r.leftDepth_le_height
    have hlt : st.length < stackMax := by omega
    have hready := h.cons hlt (by simp : node l x b r ≠ nil) .two
    have hpush : stackPush (node l x b r) .two st = .ok ((node l x b r, .two) :: st) := if_pos hlt
    have hright (hx : cut x ≠ .gt) : (x :: r.toList).filter (cut · ≠ .gt) = x :: r.toList :=
      filter_eq_self.mpr (by simpa [hx] using fun y hy => by simp [hcut.lt_of_ne_gt hx y hy])
    have hleft (hx : cut x ≠ .lt) : l.toList.filter (cut · ≠ .gt) = [] :=
      filter_eq_nil_iff.mpr fun y hy => by simp [hcut.gt_of_ne_lt hx y hy]
    cases hx : cut x with
    | eq =>
      refine ⟨_, by simp [seekSpine, hx, hpush], hready, ?_, ?_⟩
      · rw [filter_append, hleft (by simp [hx]), hright (by simp [hx])]
        rfl
      · simp only [need, slots]
        omega
    | lt =>
      obtain ⟨st', hok, hready', hrest, hneed⟩ :=
        ihl hcut.left hready (by rw [length_cons]; omega)
      refine ⟨st', by simp [seekSpine, hx, hpush, hok], hready', ?_, ?_⟩
      · rw [hrest, filter_append, hright (by simp [hx]), append_assoc]
        rfl
      · simp only [need, slots, length_cons] at hneed
        omega
    | gt =>
      obtain ⟨st', hok, hready', hrest, hneed⟩ := ihr hcut.right h (by omega)
      refine ⟨st', by simp [seekSpine, hx, hok], hready', ?_, by omega⟩
      rw [hrest, filter_append, hleft (by simp [hx]), filter_cons]
      simp [hx]

/-- **An iteration from a key on delivers what is not before it.** -/
theorem drain_seek (hadv : Advances next stack f) {cut : α → Ordering} (hcut : Cut cut t.toList)
    (hfit : t.height ≤ stackMax) (init : IterStack α → σ) (hinit : ∀ st, stack (init st) = st) :
    ∃ s', (seekSpine cut t [] >>= fun st => drain next (t.toList.length + 1) (init st))
      = .ok ((t.toList.filter (cut · ≠ .gt)).map f, s') := by
  have hempty : Ready ([] : IterStack α) := ⟨zero_le, nofun⟩
  obtain ⟨st, hst, hready, hrest, hneed⟩ := seekSpine_spec hcut hempty (by simpa using hfit)
  rw [rest_nil, append_nil] at hrest
  rw [hst, ok_bind, ← hrest]
  rw [← hinit st] at hready hneed
  have hlen : (rest (stack (init st))).length < t.toList.length + 1 := by
    rw [hinit, hrest]
    exact lt_succ_of_le (length_filter_le _ _)
  obtain ⟨s', hs'⟩ := (drain_spec hadv hready hlen).1 (hneed.trans (by simpa [need] using hfit))
  exact ⟨s', by rw [hs', hinit]⟩

end Drain

end Valgrind
