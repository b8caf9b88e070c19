import Efl.Eina.Rbtree.Lookup
import Efl.Lib.Block
import Efl.Lib.CInt

/-
  The segmented array of the list view.

  The segments are in a red-black tree, larger indices to the
  left.  Segments, items and models are numbered; there is
  memory for each.  `none` is an assertion that fails, a
  pointer that is NULL, or an entry outside of a segment.

  Main declarations:
    * `SegArray`
    * `insert`, `insertValue`, `remove`, `flush`
-/

---
-- The State
---

namespace Efl.Elementary.ListView

/- `Efl_Ui_List_View_Seg_Array_Node` -/
structure Node where
  length : Int
  max : Int
  first : Int
  pointers : List (Option Nat)

/- `Efl_Ui_List_View_Layout_Item` -/
structure Item where
  children : Nat
  indexOffset : Int
  treeNode : Nat

/-
  `Efl_Ui_List_View_Seg_Array`, with the segments and items
  that were allocated.
-/
structure SegArray where
  tree : Eina.Rbtree.Mem Nat
  node : Nat → Node
  item : Nat → Item
  nodes : Nat
  items : Nat
  stepSize : Int
  nodeCount : Int
  count : Int

def SegArray.setNode (pd : SegArray) (n : Nat) (node : Node) : SegArray :=
  { pd with node := Function.update pd.node n node }

def SegArray.setItem (pd : SegArray) (x : Nat) (item : Item) : SegArray :=
  { pd with item := Function.update pd.item x item }

/- `efl_ui_list_view_seg_array_setup` -/
def setup (size : Int) : SegArray where
  tree := ⟨none, fun _ => ⟨fun _ => none, .black⟩⟩
  node := fun _ => ⟨0, 0, 0, []⟩
  item := fun _ => ⟨0, 0, 0⟩
  nodes := 0
  items := 0
  stepSize := size
  nodeCount := 0
  count := 0

/- `efl_ui_list_view_seg_array_flush` -/
def flush (pd : SegArray) : SegArray :=
  { pd with
    tree := { pd.tree with root := none }
    nodeCount := 0
    count := 0 }

---
-- The Tree
---

open CInt RedBlack

/- `_search_lookup_cb` -/
def searchLookup (pd : SegArray) (index : Int) (n : Nat) : Int :=
  if index < (pd.node n).first then 1
  else if index < wrap ((pd.node n).first + (pd.node n).length)
  then 0
  else -1

/- `_insert_lookup_cb` -/
def insertLookup (pd : SegArray) (index : Int) (n : Nat) : Int :=
  if index < (pd.node n).first then 1
  else if index < wrap ((pd.node n).first + (pd.node n).max)
  then 0
  else -1

/- `_rbtree_compare` -/
def compare (pd : SegArray) (left right : Nat) : Side :=
  if (pd.node left).first < (pd.node right).first then .left
  else .right

/- `eina_rbtree_inline_lookup` of a segment -/
def lookup (pd : SegArray) (cmp : Nat → Int) : Option (Option Nat) :=
  Eina.Rbtree.inlineLookup cmp pd.tree pd.nodes pd.tree.root

/- `_alloc_node` -/
def allocNode (pd : SegArray) (first : Int) : Option (SegArray × Nat) := do
  let n := pd.nodes
  let pd := { pd with nodes := n + 1 }
  let pd := pd.setNode n
    ⟨0, pd.stepSize, first, List.replicate pd.stepSize.toNat none⟩
  let tree ← Eina.Rbtree.inlineInsert (compare pd) pd.tree n
  some
    ({ pd with tree := tree, nodeCount := wrap (pd.nodeCount + 1) },
      n)

/- `first` of each segment to the left of a segment is moved. -/
def moveLater (pd : SegArray) (n : Nat) (d : Int) : Option SegArray := do
  let later ← Eina.Rbtree.inorder pd.tree pd.nodes
    ((pd.tree.node n).son .left)
  some (later.foldl
    (fun pd k => pd.setNode k
      { pd.node k with first := wrap ((pd.node k).first + d) })
    pd)

---
-- Insertion
---

/- `node->pointers[pos] = item` -/
def setPointer (pd : SegArray) (n : Nat) (pos : Int) (item : Option Nat) : Option SegArray := do
  let pointers ← Block.write (pd.node n).pointers pos.toNat [item]
  some (pd.setNode n { pd.node n with pointers := pointers })

/- `_create_item_partial` -/
def createItemPartial (pd : SegArray) (model : Nat) : SegArray × Nat :=
  ({ pd.setItem pd.items ⟨model, 0, 0⟩ with
      items := pd.items + 1 }, pd.items)

/- Where an item is, and that there is one more -/
def place (pd : SegArray) (x n : Nat) (offset : Int) : SegArray :=
  let pd := pd.setItem x
    { pd.item x with indexOffset := offset, treeNode := n }
  pd.setNode n
    { pd.node n with length := wrap ((pd.node n).length + 1) }

/- The item in a segment that it fits into, or in a new one -/
def putItem (pd : SegArray) (index : Int) (x : Nat) : Option Nat → Option (SegArray × Nat)
  | some n =>
    let pos := index - (pd.node n).first
    let len := (pd.node n).length
    if pos < len then do
      let pointers ← Block.move (pd.node n).pointers
        pos.toNat (pos + 1).toNat (len - pos).toNat
      let pd := pd.setNode n
        { pd.node n with pointers := pointers }
      let pd ← setPointer pd n pos (some x)
      some (place pd x n pos, n)
    else do
      let pd ← setPointer pd n pos (some x)
      some (place pd x n pos, n)
  | none => do
    let (pd, n) ← allocNode pd index
    let pd ← setPointer pd n 0 (some x)
    some (place pd x n 0, n)

/- `_efl_ui_list_view_seg_array_insert_at_node` -/
def insertAtNode (pd : SegArray) (index : Int) (x : Nat) (node : Option Nat) :
    Option SegArray := do
  let (pd, n) ← putItem pd index x
    (node.filter fun n =>
      (pd.node n).length ≠ (pd.node n).max ∧
        index - (pd.node n).first ≤ (pd.node n).length)
  moveLater pd n 1

/- `efl_ui_list_view_seg_array_insert` -/
def insert (pd : SegArray) (index : Int) (model : Nat) : Option SegArray := do
  let (pd, x) := createItemPartial pd model
  match ← lookup pd (insertLookup pd index) with
  | none => insertAtNode pd index x none
  | some n =>
    match (pd.tree.node n).son .left with
    | some next =>
      insertAtNode pd index x
        (some (if (pd.node next).first ≤ index then next else n))
    | none => insertAtNode pd index x (some n)

/- `_efl_ui_list_view_seg_array_insert_object` -/
def insertObject (pd : SegArray) (index : Int) (children : Nat) : Option SegArray := do
  let found ← lookup pd (insertLookup pd index)
  let (pd, n) ←
    match found with
    | some n => some (pd, n)
    | none => allocNode pd index
  if (pd.node n).length < (pd.node n).max then
    let (pd, x) := createItemPartial pd children
    let pd ← setPointer pd n (pd.node n).length (some x)
    let pd := place pd x n (wrap (index - (pd.node n).first))
    some { pd with count := wrap (pd.count + 1) }
  else
    none

/- What an `Eina_Value` has -/
inductive Value where
  | object (children : Nat)
  | array (children : List Nat)
  | other

/- `EINA_VALUE_ARRAY_FOREACH`, from `idx` on -/
def insertObjects (pd : SegArray) (idx : Int) : List Nat → Option SegArray
  | [] => some pd
  | model :: models => do
    let pd ← insertObject pd idx model
    insertObjects pd (wrap (idx + 1)) models

/- `efl_ui_list_view_seg_array_insert_value` -/
def insertValue (pd : SegArray) (first : Int) : Value → Option SegArray
  | .object model => insertObject pd first model
  | .array models => insertObjects pd first models
  | .other => some pd

---
-- Removal and Access
---

/- The items behind a removed one, `k` of them, move up. -/
def shiftItems (n : Nat) : Nat → Nat → SegArray → Option SegArray
  | 0, _, pd => some pd
  | k + 1, offset, pd => do
    let p ← (pd.node n).pointers[offset + 1]?
    let pd ← setPointer pd n offset p
    let x ← p
    let pd := pd.setItem x
      { pd.item x with
        indexOffset := wrap ((pd.item x).indexOffset - 1) }
    shiftItems n k (offset + 1) pd

/- `efl_ui_list_view_seg_array_remove`, with what it returns -/
def remove (pd : SegArray) (index : Int) : Option (SegArray × Option Nat) := do
  match ← lookup pd (insertLookup pd index) with
  | none => some (pd, none)
  | some n =>
    let offset := index - (pd.node n).first
    if (pd.node n).length ≤ offset then some (pd, none)
    else do
      let rt ← (pd.node n).pointers[offset.toNat]?
      let len := wrap ((pd.node n).length - 1)
      let pd := { pd with count := wrap (pd.count - 1) }
      let pd := pd.setNode n { pd.node n with length := len }
      let pd ← shiftItems n (len - offset).toNat offset.toNat pd
      let pd ← moveLater pd n (-1)
      some (pd, rt)

/- `_efl_ui_list_view_seg_array_accessor_get_at` -/
def getAt (pd : SegArray) (idx : Int) : Option (Bool × Option Nat) := do
  match ← lookup pd (searchLookup pd idx) with
  | none => some (false, none)
  | some n =>
    if (pd.node n).first ≤ idx ∧
        idx < wrap ((pd.node n).first + (pd.node n).length) then
      let p ←
        (pd.node n).pointers[(idx - (pd.node n).first).toNat]?
      some (true, p)
    else
      some (false, none)

/- `efl_ui_list_view_item_index_get` -/
def indexGet (pd : SegArray) (x : Nat) : Int :=
  wrap ((pd.item x).indexOffset +
    (pd.node (pd.item x).treeNode).first)

end Efl.Elementary.ListView
