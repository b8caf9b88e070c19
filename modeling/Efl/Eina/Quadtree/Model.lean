import Mathlib.Algebra.Group.Nat.Defs
import Mathlib.Data.Finset.Basic
import Mathlib.Data.List.Sort
import Mathlib.Logic.Function.Basic

/-
  The tree of `eina_quadtree_new`, whose nodes hold the items
  that are on both sides of a line.

  The node of an item is the one whose list it is in.  Memory
  does not run out, and an item that is freed is not `live`
  any more; returning one is a fault, which is `none`.

  Main declarations:
    * `Tree`, `QuadTree`
    * `split`, `update`
-/

---
-- Trees and Items
---

namespace Efl.Eina.Quadtree

/- What the callbacks answer. -/
inductive Quad where
  | left
  | right
  | both
  deriving DecidableEq

/- `Eina_QuadTree_Item` without its object and its links -/
structure Item where
  index : Nat
  change : Bool
  deleteMe : Bool
  visible : Bool
  hidden : Bool

/- `Eina_QuadTree_Root`; `I` are the addresses of items. -/
inductive Tree (I : Type) where
  | nil
  | node (both : List I) (sorted : Bool) (left right : Tree I)

structure Size where
  x : Int
  y : Int
  w : Int
  h : Int
  deriving DecidableEq

/- The items, and the list of the hidden ones. -/
structure Store (I : Type) where
  items : I → Item
  live : Finset I
  hiddenItems : List I

/-
  `Eina_QuadTree`.  `shown` records the cached items with the
  indices they had when the list was made.
-/
structure QuadTree (I : Type) extends Store I where
  root : Tree I
  change : List I
  cached : List I
  shown : List (I × Nat)
  target : Size
  index : Nat
  resize : Bool
  lost : Bool
  w : Nat
  h : Nat

/- A list of items, the lowest first. -/
def Ascending {I : Type} (key : I → Nat) (l : List I) : Prop :=
  l.Pairwise fun x y => key x ≤ key y

/-
  `eina_list_sorted_insert` and `eina_list_sort`, with a
  comparison of numbers.
-/
structure ListOps (I : Type) where
  sortedInsert : (I → Nat) → List I → I → List I
  sort : (I → Nat) → List I → List I
  perm_sortedInsert : ∀ key l x,
    (sortedInsert key l x).Perm (x :: l)
  ascending_sortedInsert : ∀ key l x,
    Ascending key l → Ascending key (sortedInsert key l x)
  perm_sort : ∀ key l, (sort key l).Perm l
  ascending_sort : ∀ key l, Ascending key (sort key l)

variable {I : Type} [DecidableEq I]

namespace Store

def index (st : Store I) (x : I) : Nat :=
  (st.items x).index

def visible (st : Store I) (x : I) : Bool :=
  (st.items x).visible

def setItem (st : Store I) (x : I) (item : Item) : Store I :=
  { st with items := Function.update st.items x item }

/- An item goes to the list of the hidden ones. -/
def hide (st : Store I) (x : I) : Store I :=
  { st.setItem x { st.items x with hidden := true } with
    hiddenItems := st.hiddenItems ++ [x] }

/- An item leaves the list of the hidden ones. -/
def unhide (st : Store I) (x : I) : Store I :=
  { st.setItem x { st.items x with hidden := false } with
    hiddenItems := st.hiddenItems.erase x }

/- The end of `eina_quadtree_del` -/
def free (st : Store I) (x : I) : Store I :=
  { st with
    live := st.live.erase x
    hiddenItems :=
      if (st.items x).hidden then st.hiddenItems.erase x
      else st.hiddenItems }

end Store

namespace Tree

/- All items, node by node -/
def items : Tree I → List I
  | .nil => []
  | .node both _ left right => both ++ (left.items ++ right.items)

/- A node, or a new one -/
def parts : Tree I → List I × Bool × Tree I × Tree I
  | .nil => ([], true, .nil, .nil)
  | .node both sorted left right => (both, sorted, left, right)

/- The node, if it is still useful -/
def prune : Tree I → Tree I
  | .node [] _ .nil .nil => .nil
  | t => t

/- `_eina_quadtree_remove` -/
def remove (x : I) : Tree I → Tree I
  | .nil => .nil
  | .node both sorted left right =>
    if x ∈ both then
      prune (.node (both.erase x) sorted left right)
    else if x ∈ left.items then
      .node both sorted (left.remove x) right
    else
      .node both sorted left (right.remove x)

/- The node of an item is not sorted any more. -/
def unsort (x : I) : Tree I → Tree I
  | .nil => .nil
  | .node both sorted left right =>
    if x ∈ both then
      .node both false left right
    else if x ∈ left.items then
      .node both sorted (left.unsort x) right
    else
      .node both sorted left (right.unsort x)

end Tree

---
-- Updating the Tree
---

/-
  What both loops of `_eina_quadtree_split` do first, and
  whether the object comes into the tree.
-/
def accept (st : Store I) (x : I) : Store I × Bool :=
  let st := st.setItem x { st.items x with change := false }
  if st.visible x then
    let st := if (st.items x).hidden then st.unhide x else st
    if (st.items x).deleteMe then
      (st.free x, false)
    else
      (st, true)
  else
    (if (st.items x).hidden then st else st.hide x, false)

/- The loops of `_eina_quadtree_split`; `leaf` is the first. -/
def split (ops : ListOps I) (leaf : Bool) (func : I → Quad) (sorted : Bool) :
    List I → Store I → List I → List I → List I →
      Store I × List I × List I × List I
  | [], st, both, left, right => (st, both, left, right)
  | x :: objects, st, both, left, right =>
    let (st, comes) := accept st x
    if comes then
      if leaf then
        let both :=
          if sorted then ops.sortedInsert st.index both x
          else both ++ [x]
        split ops leaf func sorted objects st both left right
      else
        match func x with
        | .left =>
          split ops leaf func sorted objects st both
            (left ++ [x]) right
        | .right =>
          split ops leaf func sorted objects st both left
            (right ++ [x])
        | .both =>
          split ops leaf func sorted objects st (both ++ [x])
            left right
    else
      split ops leaf func sorted objects st both left right

/- The callbacks at the time of a call -/
structure Callbacks (I : Type) where
  v : I → Int → Quad
  h : I → Int → Quad

namespace Size

def middle (size : Size) (direction : Bool) : Int :=
  (if direction then size.w else size.h).tdiv 2

/- The side before the middle -/
def low (size : Size) (direction : Bool) : Size :=
  if direction then
    { size with w := size.w - size.middle direction }
  else
    { size with h := size.h - size.middle direction }

/- The side behind the middle -/
def high (size : Size) (direction : Bool) : Size :=
  if direction then
    { size.low direction with
      x := size.x + size.middle direction }
  else
    { size.low direction with
      y := size.y + size.middle direction }

end Size

/- Where a callback puts an object -/
def Callbacks.side (func : Callbacks I) (direction : Bool) (size : Size) (x : I) : Quad :=
  if direction then
    func.h x (size.x + size.middle direction)
  else
    func.v x (size.y + size.middle direction)

/- `_eina_quadtree_update`, at most `n` nodes deep -/
def update (ops : ListOps I) (func : Callbacks I) :
    Nat → Store I → Tree I → List I → Bool → Size →
      Option (Store I × Tree I)
  | _, st, root, [], _, _ => some (st, root)
  | 0, _, _, _ :: _, _, _ => none
  | n + 1, st, root, x :: objects, direction, size => do
    let (both, sorted, left, right) := root.parts
    let (st, both, lefts, rights) :=
      split ops (size.middle direction ≤ 4)
        (func.side direction size) sorted (x :: objects) st
        both [] []
    let (st, left) ← update ops func n st left lefts
      (!direction) (size.low direction)
    let (st, right) ← update ops func n st right rights
      (!direction) (size.high direction)
    some (st, .node both sorted left right)

/- One round of the loop in `eina_quadtree_root_rebuild_pre` -/
def rebuildItem (st : Store I × List I) (x : I) : Store I × List I :=
  if st.1.visible x then
    (st.1, st.2 ++ [x])
  else if (st.1.items x).hidden then
    st
  else
    (st.1.hide x, st.2)

/- `eina_quadtree_root_rebuild_pre` -/
def rebuildPre : Tree I → Store I × List I → Store I × List I
  | .nil, st => st
  | .node both _ left right, st =>
    rebuildPre right
      (rebuildPre left (both.foldl rebuildItem st))

---
-- Collisions
---

/-
  The first loop of `_eina_quadtree_merge`, from `moving` on:
  what the result is from there, and the rest of the list.
-/
def mergeLoop (key : I → Nat) (visible : I → Bool) : List I → List I → List I × List I
  | moving, [] => (moving, [])
  | [], b :: both => ([], b :: both)
  | item :: moving, b :: both =>
    if visible b = false then
      mergeLoop key visible (item :: moving) both
    else if key item < key b then
      let (result, rest) :=
        mergeLoop key visible moving (b :: both)
      (item :: result, rest)
    else
      let (result, rest) :=
        mergeLoop key visible (item :: moving) both
      (b :: result, rest)
termination_by moving both => moving.length + both.length

/- The second loop, before the last item of the result -/
def mergeLast (key : I → Nat) (visible : I → Bool) (last : Nat) : List I → List I × List I
  | [] => ([], [])
  | b :: both =>
    if visible b = false then
      mergeLast key visible last both
    else if last < key b then
      ([], b :: both)
    else
      let (before, rest) := mergeLast key visible last both
      (b :: before, rest)

/- `_eina_quadtree_merge` -/
def merge (key : I → Nat) (visible : I → Bool) (result both : List I) : List I :=
  match both, result with
  | [], result => result
  | both, [] => both.filter visible
  | both, item :: result =>
    let (result, rest) :=
      mergeLoop key visible (item :: result) both
    match result.getLast? with
    | none => result
    | some last =>
      let (before, rest) :=
        mergeLast key visible (key last) rest
      result.dropLast ++ before ++ [last] ++
        rest.filter visible

/- `eina_spans_intersect` -/
def spansIntersect (c₁ l₁ c₂ l₂ : Int) : Bool :=
  !(c₂ + l₂ ≤ c₁ || c₂ ≥ c₁ + l₁)

def Size.meets (size target : Size) (direction : Bool) : Bool :=
  if direction then
    spansIntersect size.x size.w target.x target.w
  else
    spansIntersect size.y size.h target.y target.h

/- `_eina_quadtree_collide`, with the tree that it has sorted -/
def collideTree (ops : ListOps I) (st : Store I) (target : Size) :
    Tree I → List I → Bool → Size → Tree I × List I
  | .nil, result, _, _ => (.nil, result)
  | .node both sorted left right, result, direction, size =>
    let both := if sorted then both else ops.sort st.index both
    let result := merge st.index st.visible result both
    let (left, result) :=
      if (size.low direction).meets target direction then
        collideTree ops st target left result (!direction)
          (size.low direction)
      else
        (left, result)
    let (right, result) :=
      if (size.high direction).meets target direction then
        collideTree ops st target right result (!direction)
          (size.high direction)
      else
        (right, result)
    (.node both true left right, result)

namespace QuadTree

/- The whole tree, where sizes become `int` -/
def canvas (s : QuadTree I) : Size where
  x := 0
  y := 0
  w := (s.w : Int).bmod (2 ^ 32)
  h := (s.h : Int).bmod (2 ^ 32)

/- `if (q->resize)` in `eina_quadtree_collide` -/
def rebuild (s : QuadTree I) : QuadTree I :=
  if s.resize then
    let (st, change) := rebuildPre s.root (s.toStore, s.change)
    { s with
      toStore := st
      root := .nil
      change := change
      resize := false }
  else
    s

/- As many nodes are never above each other. -/
def depth (s : QuadTree I) : Nat :=
  s.w + s.h + 1

/- `if (q->change)` -/
def insert (ops : ListOps I) (func : Callbacks I) (s : QuadTree I) : Option (QuadTree I) :=
  match s.change with
  | [] => some s
  | _ :: _ => do
    let (st, root) ← update ops func s.depth s.toStore s.root
      s.change false s.canvas
    some
      { s with
        toStore := st
        root := root
        change := []
        lost := true }

/- `if` there is a new target -/
def aim (target : Size) (s : QuadTree I) : QuadTree I :=
  if s.target = target then
    s
  else
    { s with target := target, lost := true }

/- `if (q->lost)` -/
def find (ops : ListOps I) (s : QuadTree I) : QuadTree I :=
  if s.lost then
    let (root, result) := collideTree ops s.toStore s.target
      s.root [] false s.canvas
    { s with
      root := root
      cached := result
      shown := result.map fun x => (x, s.toStore.index x)
      lost := false }
  else
    s

/-
  `eina_quadtree_collide`; what it returns is `cached`, which
  goes through freed memory when an item was freed.
-/
def collide (ops : ListOps I) (func : Callbacks I)
    (target : Size) (s : QuadTree I) : Option (QuadTree I) := do
  let s ← s.rebuild.insert ops func
  let s := (s.aim target).find ops
  if ∀ x ∈ s.cached, x ∈ s.live then some s else none

---
-- Operations
---

/- `eina_quadtree_new`, with callbacks -/
def new (w h : Nat) (items : I → Item) : Option (QuadTree I) :=
  if w = 0 ∨ h = 0 then
    none
  else
    some
      { items := items
        live := ∅
        hiddenItems := []
        root := .nil
        change := []
        cached := []
        shown := []
        target := ⟨0, 0, 0, 0⟩
        index := 0
        resize := false
        lost := true
        w := w
        h := h }

/- `q->index++`, which is a `size_t` -/
def nextIndex (s : QuadTree I) : Nat :=
  (s.index + 1) % 2 ^ 64

/- `eina_quadtree_add` of an object, at a free address -/
def add (s : QuadTree I) (x : I) : QuadTree I :=
  { s with
    toStore :=
      { s.toStore.setItem x
          { index := s.index
            change := true
            deleteMe := false
            visible := true
            hidden := false } with
        live := Insert.insert x s.live }
    index := s.nextIndex
    change := s.change ++ [x] }

/- `eina_quadtree_del` -/
def del (s : QuadTree I) (x : I) : QuadTree I :=
  let s := { s with root := s.root.remove x }
  if (s.items x).change then
    { s with
      toStore := s.toStore.setItem x
        { s.items x with deleteMe := true, visible := true } }
  else
    { s with toStore := s.toStore.free x }

/- `eina_quadtree_change` -/
def changed (s : QuadTree I) (x : I) : QuadTree I :=
  if (s.items x).deleteMe ∨ (s.items x).visible = false then
    s
  else if s.resize then
    s
  else
    { s with
      toStore := s.toStore.setItem x
        { s.items x with change := true }
      change :=
        if (s.items x).change then s.change
        else s.change ++ [x]
      root := s.root.remove x }

def setVisible (s : QuadTree I) (x : I) (visible : Bool) : QuadTree I :=
  { s with
    toStore := s.toStore.setItem x
      { s.items x with visible := visible } }

/- `eina_quadtree_show` -/
def «show» (s : QuadTree I) (x : I) : QuadTree I :=
  let s := { s with lost := true }
  if (s.items x).visible then
    s
  else
    let s := s.setVisible x true
    if (s.items x).change then s else s.changed x

/- `eina_quadtree_resize` -/
def resized (s : QuadTree I) (w h : Nat) : QuadTree I :=
  if s.w = w ∧ s.h = h then
    s
  else
    { s with resize := true, w := w, h := h }

/- `eina_quadtree_increase` -/
def increase (s : QuadTree I) (x : I) : QuadTree I :=
  let tmp := s.index
  let s := { s with index := s.nextIndex }
  if (s.items x).index = tmp then
    s
  else
    { s with
      toStore := s.toStore.setItem x
        { s.items x with index := tmp }
      root := s.root.unsort x }

end QuadTree

inductive Call (I : Type) where
  | add (x : I)
  | del (x : I)
  | change (x : I)
  | hide (x : I)
  | «show» (x : I)
  | increase (x : I)
  | cycle
  | resize (w h : Nat)
  | collide (func : Callbacks I) (target : Size)

/- Items are used until they are freed. -/
def step (ops : ListOps I) (s : QuadTree I) : Call I → Option (QuadTree I)
  | .add x => if x ∈ s.live then none else some (s.add x)
  | .del x => if x ∈ s.live then some (s.del x) else none
  | .change x => if x ∈ s.live then some (s.changed x) else none
  | .hide x => if x ∈ s.live then some (s.setVisible x false) else none
  | .show x => if x ∈ s.live then some (s.show x) else none
  | .increase x => if x ∈ s.live then some (s.increase x) else none
  | .cycle => some { s with index := 0 }
  | .resize w h => some (s.resized w h)
  | .collide func target => s.collide ops func target

end Efl.Eina.Quadtree
