import Efl.Eina.Rbtree.Model

/-
  The iterators over an `Eina_Rbtree`.

  One function serves three orders.  Its stack holds entries
  from the heap; entries that are popped go to a trash, where
  the first word is the link to the next one, and are taken
  from there again.  Reading an entry that is in the trash is
  `none`, like following NULL and like running out of `fuel`.

  Main declarations:
    * `Entry`, `Cell`, `Iterator`
    * `listNew`
-/

---
-- Entries
---

namespace Efl.Eina.Rbtree

open RedBlack Function

/- `EINA_RBTREE_ITERATOR_PREFIX_MASK` -/
def prefixMask : Nat :=
  0x1

/- `EINA_RBTREE_ITERATOR_INFIX_MASK` -/
def infixMask : Nat :=
  0x2

/- `EINA_RBTREE_ITERATOR_POSTFIX_MASK` -/
def postfixMask : Nat :=
  0x4

/- The test `(mask & bit) == bit`. -/
def masked (mask bit : Nat) : Bool :=
  mask &&& bit = bit

/- `Eina_Iterator_Rbtree_List` -/
structure Entry (N : Type) where
  tree : Option N
  dir : Side
  up : Bool

/- What an allocated block holds. -/
inductive Cell (N : Type) where
  | entry (e : Entry N)
  | trash (next : Option Nat)

/-
  `Eina_Iterator_Rbtree` and the heap.  The stack is top
  first; the addresses from `fresh` on are not allocated.
-/
structure Iterator (N : Type) where
  cell : Nat → Cell N
  fresh : Nat
  stack : List Nat
  trash : Option Nat
  mask : Nat

variable {N : Type}

namespace Iterator

def entry (it : Iterator N) (a : Nat) : Option (Entry N) :=
  match it.cell a with
  | .entry e => some e
  | .trash _ => none

def setEntry (it : Iterator N) (a : Nat) (e : Entry N) : Iterator N :=
  { it with cell := update it.cell a (.entry e) }

/- `eina_trash_push` -/
def trashPush (it : Iterator N) (a : Nat) : Iterator N :=
  { it with
    cell := update it.cell a (.trash it.trash)
    trash := some a }

/- `eina_trash_pop` -/
def trashPop (it : Iterator N) : Option (Iterator N × Option Nat) :=
  match it.trash with
  | none => some (it, none)
  | some a =>
    match it.cell a with
    | .entry _ => none
    | .trash next => some ({ it with trash := next }, some a)

end Iterator

/-
  `_eina_rbtree_iterator_list_new`, where `malloc` tells
  which allocations succeed.
-/
def listNew (malloc : Nat → Bool) (it : Iterator N)
    (tree : Option N) : Option (Iterator N × Option Nat) := do
  let (it, new) ← it.trashPop
  match new with
  | some a => some (it.setEntry a ⟨tree, .right, false⟩, some a)
  | none =>
    if malloc it.fresh then
      let a := it.fresh
      let it := { it with fresh := a + 1 }
      some (it.setEntry a ⟨tree, .right, false⟩, some a)
    else
      some (it, none)

---
-- Next
---

/-
  Either the call returns, with `*data` if it is `EINA_TRUE`,
  or it goes on with the entry `last` and the variable `tree`.
-/
inductive Climb (N : Type) where
  | stopped (it : Iterator N) (data : Option (Option N))
  | reached (it : Iterator N) (last : Nat) (tree : Option N)

/-
  The `while` loop of `_eina_rbtree_iterator_next`, with
  `last` popped from the stack.  Without an entry below there
  is nothing left to pop.
-/
def climb (it : Iterator N) : List Nat → Nat → Option N → Option (Climb N)
  | [], last, tree => do
    let e ← it.entry last
    if e.dir = .left ∨ e.tree.isNone then
      let it := { it.trashPush last with stack := [] }
      if tree.isSome ∧ masked it.mask postfixMask then
        some (.stopped it (some tree))
      else
        some (.stopped it none)
    else
      some (.reached { it with stack := [] } last tree)
  | p :: rest, last, tree => do
    let e ← it.entry last
    if e.dir = .left ∨ e.tree.isNone then
      let it := it.trashPush last
      let below ← it.entry p
      if tree.isSome ∧ masked it.mask postfixMask then
        let it := it.setEntry p { below with up := true }
        some (.stopped { it with stack := p :: rest }
          (some tree))
      else
        climb it rest p below.tree
    else
      some (.reached { it with stack := p :: rest } last tree)

/- `_eina_rbtree_iterator_next` up to the new entry -/
def ascend (it : Iterator N) : Option (Climb N) :=
  match it.stack with
  | [] => some (.stopped it none)
  | last :: rest => do
    let e ← it.entry last
    if e.tree.isNone ∨ e.up then
      match ← climb it rest last e.tree with
      | .stopped it data => some (.stopped it data)
      | .reached it last tree => do
        let e ← it.entry last
        let it := it.setEntry last
          { e with dir := .left, up := false }
        let it := { it with stack := last :: it.stack }
        if masked it.mask infixMask then
          some (.stopped it (some tree))
        else
          some (.reached it last tree)
    else
      some (.reached it last e.tree)

/- `_eina_rbtree_iterator_next` -/
def iteratorNext (m : Mem N) (malloc : Nat → Bool) : Nat → Iterator N →
      Option (Iterator N × Option (Option N))
  | 0, _ => none
  | fuel + 1, it => do
    match ← ascend it with
    | .stopped it data => some (it, data)
    | .reached it last tree => do
      let e ← it.entry last
      let n ← e.tree
      let (it, new) ←
        listNew malloc it ((m.node n).son e.dir)
      match new with
      | none => some (it, none)
      | some new => do
        let it := { it with stack := new :: it.stack }
        let e ← it.entry last
        if e.dir = .right ∧ masked it.mask prefixMask then
          some (it, some tree)
        else
          iteratorNext m malloc fuel it

/-
  `_eina_rbtree_iterator_build`, on an iterator from
  `iterator_trash` or a new one.  `none` inside is the return
  of NULL.
-/
def iteratorBuild (malloc : Nat → Bool) (it : Iterator N) (root : Option N)
    (mask : Nat) : Option (Option (Iterator N)) := do
  let (it, first) ← listNew malloc it root
  match first with
  | none => some none
  | some first =>
    some (some { it with
      stack := first :: it.stack
      mask := mask })

/-
  `_eina_rbtree_iterator_free`, when there is room in
  `iterator_trash`.  The entries on the stack are freed.
-/
def iteratorFree (it : Iterator N) : Iterator N :=
  { it with stack := [] }

/- The results of `k` calls of `eina_iterator_next` -/
def iteratorCalls (m : Mem N) (malloc : Nat → Bool) (fuel : Nat) :
    Nat → Iterator N → Option (List (Option (Option N)))
  | 0, _ => some []
  | k + 1, it => do
    let (it, data) ← iteratorNext m malloc fuel it
    let rest ← iteratorCalls m malloc fuel k it
    some (data :: rest)

end Efl.Eina.Rbtree
