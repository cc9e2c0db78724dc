import Valgrind.Core.LibcAssert
import Valgrind.Foundations.AvlTree

/-!
# Core/AvlCode — the AVL insertion and deletion of `m_oset.c`, `m_wordfm.c` and `cg_merge.c`

The three files hold the same code over different nodes: `avl_swl`, `avl_swr`, `avl_nasty`,
`avl_insert(_wrk)`, `avl_remove(_wrk)` and `avl_removeroot(_wrk)`.  They differ in how a node is
compared with the root, in what happens to a duplicate, and in whether the switches over a balance
end in `default: vg_assert(0)`; an `AvlCode` collects these.

A pointer to a node is the tree below it.  The code updates nodes in place and tells its caller by
a flag whether the height has changed.  When `avl_insert` reports growth it does not write the
subtree's root back into the parent: it relies on growth leaving the root node where it was, which
is `AvlCode.Inserted.root`.
-/

namespace Valgrind

open AvlTree (nil node leaf)

variable {κ α ω : Type}

/-- What one of the source files puts into the shared AVL code. -/
structure AvlCode (κ α : Type) where
  /-- The key of a node. -/
  key : α → κ
  /-- Where a search for a key goes at a node: `.lt` to the left, `.gt` to the right. -/
  cmp : κ → α → Ordering
  /-- Equality of node pointers. -/
  same : α → α → Bool
  /-- The switches over a balance end in `default: vg_assert(0)`. -/
  checked : Bool

namespace AvlCode

/-! ## Reading and writing through a node pointer -/

/-- `t->balance`. -/
def getBalance : AvlTree α → Except Abort ℤ
  | nil => .error .nullPointer
  | node _ _ b _ => .ok b

/-- `t->balance = b`. -/
def setBalance (b : ℤ) : AvlTree α → Except Abort (AvlTree α)
  | nil => .error .nullPointer
  | node l x _ r => .ok (node l x b r)

/-- `t->left->balance = b`. -/
def setLeftBalance (b : ℤ) : AvlTree α → Except Abort (AvlTree α)
  | nil => .error .nullPointer
  | node l x b' r => do return node (← setBalance b l) x b' r

/-- `t->right->balance = b`. -/
def setRightBalance (b : ℤ) : AvlTree α → Except Abort (AvlTree α)
  | nil => .error .nullPointer
  | node l x b' r => do return node l x b' (← setBalance b r)

/-! ## The code -/

/-- `avl_swl`: swing to the left. -/
def avlSwl : AvlTree α → Except Abort (AvlTree α)
  | node a x bx (node b y by' c) => .ok (node (node a x bx b) y by' c)
  | _ => .error .nullPointer

/-- `avl_swr`: swing to the right. -/
def avlSwr : AvlTree α → Except Abort (AvlTree α)
  | node (node a x bx b) y by' c => .ok (node a x bx (node b y by' c))
  | _ => .error .nullPointer

/-- `avl_nasty`: balance maintenance after especially nasty swings. -/
def avlNasty (checked : Bool) (t : AvlTree α) : Except Abort (AvlTree α) := do
  let b ← getBalance t
  let t ← (if b = -1 then setLeftBalance 0 t >>= setRightBalance 1
    else if b = 1 then setLeftBalance (-1) t >>= setRightBalance 0
    else if b = 0 then setLeftBalance 0 t >>= setRightBalance 0
    else if checked then .error .assertion
    else .ok t)
  setBalance 0 t

variable (c : AvlCode κ α)

/-- The rest of `avl_insert` at a node whose left subtree has grown. -/
def leftGrown (l : AvlTree α) (x : α) (b : ℤ) (r : AvlTree α) :
    Except Abort (AvlTree α × Bool) :=
  if b = 1 then .ok (node l x (b - 1) r, false)
  else if b = 0 then .ok (node l x (b - 1) r, true)
  else if c.checked ∧ b ≠ -1 then .error .assertion
  else do
    if (← getBalance l) < 0 then
      let t ← avlSwr (node l x (b - 1) r)
      let t ← setBalance 0 t
      return (← setRightBalance 0 t, false)
    else
      let l ← avlSwl l
      let t ← avlSwr (node l x (b - 1) r)
      return (← avlNasty c.checked t, false)

/-- The rest of `avl_insert` at a node whose right subtree has grown. -/
def rightGrown (l : AvlTree α) (x : α) (b : ℤ) (r : AvlTree α) :
    Except Abort (AvlTree α × Bool) :=
  if b = -1 then .ok (node l x (b + 1) r, false)
  else if b = 0 then .ok (node l x (b + 1) r, true)
  else if c.checked ∧ b ≠ 1 then .error .assertion
  else do
    if (← getBalance r) > 0 then
      let t ← avlSwl (node l x (b + 1) r)
      let t ← setBalance 0 t
      return (← setLeftBalance 0 t, false)
    else
      let r ← avlSwr r
      let t ← avlSwl (node l x (b + 1) r)
      return (← avlNasty c.checked t, false)

/-- The node with its left subtree replaced by what `avl_insert` made of it. -/
def leftInserted (x : α) (b : ℤ) (r : AvlTree α) :
    AvlTree α × Bool × ω → Except Abort (AvlTree α × Bool × ω)
  | (l, true, o) => do
    let (t, grown) ← c.leftGrown l x b r
    return (t, grown, o)
  | (l, false, o) => .ok (node l x b r, false, o)

/-- The node with its right subtree replaced by what `avl_insert` made of it. -/
def rightInserted (l : AvlTree α) (x : α) (b : ℤ) :
    AvlTree α × Bool × ω → Except Abort (AvlTree α × Bool × ω)
  | (r, true, o) => do
    let (t, grown) ← c.rightGrown l x b r
    return (t, grown, o)
  | (r, false, o) => .ok (node l x b r, false, o)

/-- `avl_insert`, `avl_insert_wrk`: put the node `n` into the tree.  `dup` says what becomes of a
node with an equal key, and what is then reported in place of `fresh`.  The flag tells whether the
tree has grown higher. -/
def avlInsert (n : α) (dup : α → Except Abort (α × ω)) (fresh : ω) :
    AvlTree α → Except Abort (AvlTree α × Bool × ω)
  | nil => .ok (leaf n, true, fresh)
  | node l x b r =>
    match c.cmp (c.key n) x with
    | .lt =>
      if l.isNil then .ok (node (leaf n) x (b - 1) r, b = 0, fresh)
      else avlInsert n dup fresh l >>= c.leftInserted x b r
    | .gt =>
      if r.isNil then .ok (node l x (b + 1) (leaf n), b = 0, fresh)
      else avlInsert n dup fresh r >>= c.rightInserted l x b
    | .eq => do
      let (x, o) ← dup x
      return (node l x b r, false, o)

/-- The rest of `avl_remove` at a node whose left subtree has shrunk. -/
def leftShrunk (l : AvlTree α) (x : α) (b : ℤ) (r : AvlTree α) :
    Except Abort (AvlTree α × Bool) :=
  if b = -1 then .ok (node l x (b + 1) r, true)
  else if b = 0 then .ok (node l x (b + 1) r, false)
  else if c.checked ∧ b ≠ 1 then .error .assertion
  else do
    let br ← getBalance r
    if br = 0 then
      let t ← avlSwl (node l x (b + 1) r)
      let t ← setBalance (-1) t
      return (← setLeftBalance 1 t, false)
    else if br = 1 then
      let t ← avlSwl (node l x (b + 1) r)
      let t ← setBalance 0 t
      return (← setLeftBalance 0 t, true)
    else if c.checked ∧ br ≠ -1 then .error .assertion
    else
      let r ← avlSwr r
      let t ← avlSwl (node l x (b + 1) r)
      return (← avlNasty c.checked t, true)

/-- The rest of `avl_remove` at a node whose right subtree has shrunk. -/
def rightShrunk (l : AvlTree α) (x : α) (b : ℤ) (r : AvlTree α) :
    Except Abort (AvlTree α × Bool) :=
  if b = 1 then .ok (node l x (b - 1) r, true)
  else if b = 0 then .ok (node l x (b - 1) r, false)
  else if c.checked ∧ b ≠ -1 then .error .assertion
  else do
    let bl ← getBalance l
    if bl = 0 then
      let t ← avlSwr (node l x (b - 1) r)
      let t ← setBalance 1 t
      return (← setRightBalance (-1) t, false)
    else if bl = -1 then
      let t ← avlSwr (node l x (b - 1) r)
      let t ← setBalance 0 t
      return (← setRightBalance 0 t, true)
    else if c.checked ∧ bl ≠ 1 then .error .assertion
    else
      let l ← avlSwl l
      let t ← avlSwr (node l x (b - 1) r)
      return (← avlNasty c.checked t, true)

/-- `while (n->right) n = n->right;` -/
def rightmost : AvlTree α → Except Abort α
  | nil => .error .nullPointer
  | node _ x _ r => if r.isNil then .ok x else rightmost r

/-- `while (n->left) n = n->left;` -/
def leftmost : AvlTree α → Except Abort α
  | nil => .error .nullPointer
  | node l x _ _ => if l.isNil then .ok x else leftmost l

/-- The node with its left subtree replaced by what `avl_remove` left of it. -/
def leftRemoved (x : α) (b : ℤ) (r : AvlTree α) :
    AvlTree α × Bool → Except Abort (AvlTree α × Bool)
  | (l, true) => c.leftShrunk l x b r
  | (l, false) => .ok (node l x b r, false)

/-- The node with its right subtree replaced by what `avl_remove` left of it. -/
def rightRemoved (l : AvlTree α) (x : α) (b : ℤ) :
    AvlTree α × Bool → Except Abort (AvlTree α × Bool)
  | (r, true) => c.rightShrunk l x b r
  | (r, false) => .ok (node l x b r, false)

/-- The end of `avl_removeroot`: the node `n` takes the place of the root. -/
def replaceRoot (n : α) : AvlTree α × Bool → Except Abort (AvlTree α × Bool)
  | (nil, _) => .error .nullPointer
  | (node l _ b r, ch) => .ok (node l n b r, if b = 0 then ch else false)

/-- `avl_removeroot`, `avl_removeroot_wrk`: the in-order neighbour `m` of the root on its higher
side takes the root's place, after `avl_remove` has taken `m` out of the *same* tree.  That call
first compares `m` with the root, so it goes on in a subtree (`inLeft`, `inRight`); were the two
equal and the same node, it would be back where it started. -/
def avlRemoveroot (inLeft inRight : α → Except Abort (AvlTree α × Bool)) (l : AvlTree α) (x : α)
    (b : ℤ) (r : AvlTree α) : Except Abort (AvlTree α × Bool) :=
  if l.isNil then .ok (r, true)
  else if r.isNil then .ok (l, true)
  else do
    let m ← if b < 0 then rightmost l else leftmost r
    let p ← match c.cmp (c.key m) x with
      | .lt => inLeft m >>= c.leftRemoved x b r
      | .gt => inRight m >>= c.rightRemoved l x b
      | .eq => if c.same x m then .error .diverges else .error .assertion
    replaceRoot m p

/-- `avl_remove`, `avl_remove_wrk`: take the node `n` out of the tree.  The flag tells whether the
tree has become lower. -/
def avlRemove : AvlTree α → α → Except Abort (AvlTree α × Bool)
  | nil, _ => .error .nullPointer
  | node l x b r, n =>
    match c.cmp (c.key n) x with
    | .lt =>
      if l.isNil then .error .assertion
      else avlRemove l n >>= c.leftRemoved x b r
    | .gt =>
      if r.isNil then .error .assertion
      else avlRemove r n >>= c.rightRemoved l x b
    | .eq =>
      if c.same x n then c.avlRemoveroot (avlRemove l) (avlRemove r) l x b r
      else .error .assertion

/-- `avl_lookup`, `avl_find_node`: the node with the given key. -/
def avlFind (k : κ) : AvlTree α → Option α
  | nil => none
  | node l x _ r =>
    match c.cmp k x with
    | .lt => avlFind k l
    | .gt => avlFind k r
    | .eq => some x

end AvlCode

end Valgrind
