import Mathlib.Logic.Function.Basic
import Efl.Lib.RedBlack

/-
  The inline red-black tree of Eina, on memory.

  Nodes are embedded in the caller's structures; `N` is the
  type of their addresses.  A link is the address of a node
  pointer: the local variable `root`, or one of the two sons
  of a node.  Both calls keep links, tagged with a direction,
  on a stack of `stackSize` entries.  `none` is a call that
  runs into undefined behaviour: a NULL pointer followed or
  an entry written behind the end of the stack.

  Main declarations:
    * `Rbtree.Mem`
    * `Rbtree.Link`
-/

---
-- Memory and Links
---

namespace Efl.Eina.Rbtree

open RedBlack Function

/- The fields of one `Eina_Rbtree`. -/
structure Node (N : Type) where
  son : Side → Option N
  color : Color

/- The node pointed to by `root`, and the node structures. -/
structure Mem (N : Type) where
  root : Option N
  node : N → Node N

/- The address of a node pointer. -/
inductive Link (N : Type) where
  | root
  | son (n : N) (d : Side)
  deriving DecidableEq

variable {N : Type} [DecidableEq N]

namespace Mem

omit [DecidableEq N] in
/- Follow a link. -/
def read (m : Mem N) : Link N → Option N
  | .root => m.root
  | .son n d => (m.node n).son d

/- Store a node pointer at a link. -/
def write (m : Mem N) (r : Link N) (p : Option N) : Mem N :=
  match r with
  | .root => { m with root := p }
  | .son n d =>
    { m with
      node := update m.node n
        { m.node n with
          son := update (m.node n).son d p } }

/- Assign the colour of a node. -/
def setColor (m : Mem N) (n : N) (c : Color) : Mem N :=
  { m with
    node := update m.node n
      { m.node n with color := c } }

/- Copy the structure of node `src` over node `dst`. -/
def copy (m : Mem N) (dst src : N) : Mem N :=
  { m with
    node := update m.node dst (m.node src) }

omit [DecidableEq N] in
/- The test `p != NULL && p->color == EINA_RBTREE_RED`. -/
def isRed (m : Mem N) (p : Option N) : Bool :=
  match p with
  | none => false
  | some n => (m.node n).color = .red

end Mem

---
-- Rotations
---

/- `_eina_rbtree_node_init` -/
def nodeInit (m : Mem N) (n : N) : Mem N :=
  { m with
    node := Function.update m.node n
      { son := fun _ => none, color := .red } }

/- `_eina_rbtree_inline_single_rotation` -/
def singleRotation (m : Mem N) (n : N) (d : Side) : Option (Mem N × N) := do
  let save ← (m.node n).son d.flip
  let m := m.write (.son n d.flip) ((m.node save).son d)
  let m := m.write (.son save d) (some n)
  let m := m.setColor n .red
  let m := m.setColor save .black
  some (m, save)

/- `_eina_rbtree_inline_double_rotation` -/
def doubleRotation (m : Mem N) (n : N) (d : Side) : Option (Mem N × N) := do
  let inner ← (m.node n).son d.flip
  let (m, top) ← singleRotation m inner d.flip
  let m := m.write (.son n d.flip) (some top)
  singleRotation m n d

---
-- Insertion
---

/- The number of entries of the array `stack`. -/
def stackSize : Nat :=
  48

/- The stack, top first: a tagged link for each node passed. -/
abbrev Stack (N : Type) :=
  List (Link N × Side)

omit [DecidableEq N] in
/-
  "Find insertion leaf", with room for `room` more entries on
  the stack.
-/
def insertDescend (cmp : N → N → Side) (n : N) (m : Mem N) :
    Nat → Link N → Stack N → Option (Link N × Stack N)
  | room, r, stack =>
    match m.read r, room with
    | none, _ => some (r, stack)
    | some _, 0 => none
    | some q, room + 1 =>
      let dir := cmp q n
      insertDescend cmp n m room (.son q dir)
        ((r, dir) :: stack)

/- The branch of the loop where the sibling is not red. -/
def insertRotate (m : Mem N) (r : Link N) (q a : N) (dir : Side) : Option (Mem N) :=
  if m.isRed ((m.node a).son dir) then do
    let (m, top) ← singleRotation m q dir.flip
    some (m.write r (some top))
  else if m.isRed ((m.node a).son dir.flip) then do
    let (m, top) ← doubleRotation m q dir.flip
    some (m.write r (some top))
  else
    some m

/- The loop "Rebalance" of an insertion. -/
def insertRebalance (m : Mem N) : Stack N → Option (Mem N)
  | [] => some m
  | (r, dir) :: stack => do
    let q ← m.read r
    match (m.node q).son dir with
    | none => some m
    | some a =>
      if (m.node a).color = .black then
        some m
      else if m.isRed ((m.node q).son dir.flip) then do
        let b ← (m.node q).son dir.flip
        let m := m.setColor q .red
        let m := m.setColor b .black
        let m := m.setColor a .black
        insertRebalance m stack
      else do
        let m ← insertRotate m r q a dir
        insertRebalance m stack

/- `root->color = EINA_RBTREE_BLACK`, when there is a root. -/
def blackenRoot (m : Mem N) : Mem N :=
  match m.root with
  | none => m
  | some n => m.setColor n .black

/- `eina_rbtree_inline_insert` -/
def inlineInsert (cmp : N → N → Side) (m : Mem N) (n : N) : Option (Mem N) := do
  let (r, stack) ←
    insertDescend cmp n m stackSize .root []
  let m := m.write r (some n)
  let m := nodeInit m n
  let m ← insertRebalance m stack
  some (blackenRoot m)

---
-- Removal
---

/- What the item search loop of a removal ends with. -/
inductive Search (N : Type) where
  | missing
  | found (rt : Link N) (stack : Stack N)

/- "Item search loop" -/
def removeSearch (cmp : N → N → Side) (n : N) (m : Mem N) :
    Nat → Link N → Stack N → Option (Search N)
  | room, rt, stack =>
    match m.read rt with
    | none => some .missing
    | some r =>
      if r = n then
        some (.found rt stack)
      else
        match room with
        | 0 => none
        | room + 1 =>
          let dir := cmp r n
          removeSearch cmp n m room (.son r dir)
            ((rt, dir) :: stack)

omit [DecidableEq N] in
/-
  The loop below "find predecessor": from the node `q` that
  the link `p` holds, go left until there is no left son.
-/
def leftmostDescend (m : Mem N) : Nat → Link N → N → Stack N →
      Option (Link N × N × Stack N)
  | room, p, q, stack =>
    match (m.node q).son .left, room with
    | none, _ => some (p, q, stack)
    | some _, 0 => none
    | some t, room + 1 =>
      leftmostDescend m room (.son q .left) t
        ((p, .left) :: stack)

/- Assign entry `i`, counted from the bottom of the stack. -/
def stackSet (stack : Stack N) (i : Nat) (entry : Link N × Side) : Stack N :=
  stack.set (stack.length - 1 - i) entry

/-
  The end of a repair after a rotation: the new root of the
  subtree takes the old colour, its sons become black.
-/
def recolorTop (m : Mem N) (top : N) (c : Color) : Option (Mem N) := do
  let m := m.setColor top c
  let s₀ ← (m.node top).son .left
  let m := m.setColor s₀ .black
  let s₁ ← (m.node top).son .right
  some (m.setColor s₁ .black)

/-
  The body of `if (q != NULL)`.  The flag says whether the
  loop is left by `break`.
-/
def liftStep (m : Mem N) (rt : Link N) (r q : N) (dir : Side) : Option (Mem N × Bool) :=
  let c := (m.node r).color
  if m.isRed ((m.node q).son dir.flip) then do
    let (m, top) ← singleRotation m r dir
    let m ← recolorTop (m.write rt (some top)) top c
    some (m, true)
  else if m.isRed ((m.node q).son dir) then do
    let (m, top) ← doubleRotation m r dir
    let m ← recolorTop (m.write rt (some top)) top c
    some (m, true)
  else
    let m := m.setColor r .black
    let m := m.setColor q .red
    some (m, decide (c = .red))

/- The loop "rebalance" of a removal. -/
def removeRebalance (m : Mem N) : Stack N → Option (Mem N)
  | [] => some m
  | (rt, dir) :: stack => do
    let r ← m.read rt
    let q := (m.node r).son dir.flip
    let (m, rt) ←
      if m.isRed q then do
        let (m, top) ← singleRotation m r dir
        some (m.write rt (some top), .son top dir)
      else
        some (m, rt)
    match (m.node r).son dir.flip with
    | none => removeRebalance m stack
    | some q => do
      let (m, done) ← liftStep m rt r q dir
      if done then some m else removeRebalance m stack

/-
  The case of two sons: the leftmost node on the right takes
  the place of `n`.
-/
def removeTwo (m : Mem N) (n l₁ : N) (rt : Link N) (stack : Stack N) : Option (Mem N) :=
  if stackSize ≤ stack.length then
    none
  else do
    let stack := (rt, .right) :: stack
    let ss := stack.length
    let (p, q, stack) ←
      leftmostDescend m (stackSize - ss) (.son n .right) l₁
        stack
    let m := m.write p ((m.node q).son .right)
    let c := (m.node q).color
    let m := m.copy q n
    let m := m.write rt (some q)
    if c = .red then
      some m
    else
      let stack :=
        if ss < stack.length then
          stackSet stack ss (.son q .right, .left)
        else
          stack
      removeRebalance m stack

/- The case of at most one son. -/
def removeOne (m : Mem N) (n : N) (l : Option N) (rt : Link N)
    (stack : Stack N) : Option (Mem N) :=
  let m := m.write rt l
  if (m.node n).color = .red then
    some m
  else
    match l with
    | none => removeRebalance m stack
    | some l₀ =>
      if (m.node l₀).color = .red then
        some (m.setColor l₀ .black)
      else
        removeRebalance m stack

/- The part of the call below the label `found`. -/
def removeFound (m : Mem N) (n : N) (rt : Link N) (stack : Stack N) : Option (Mem N) :=
  match (m.node n).son .left, (m.node n).son .right with
  | some _, some l₁ => removeTwo m n l₁ rt stack
  | some l₀, none => removeOne m n (some l₀) rt stack
  | none, l₁ => removeOne m n l₁ rt stack

/- `eina_rbtree_inline_remove` -/
def inlineRemove (cmp : N → N → Side) (m : Mem N) (n : N) : Option (Mem N) := do
  match ← removeSearch cmp n m stackSize .root [] with
  | .missing => some m
  | .found rt stack =>
    let m ← removeFound m n rt stack
    some (blackenRoot m)

end Efl.Eina.Rbtree
