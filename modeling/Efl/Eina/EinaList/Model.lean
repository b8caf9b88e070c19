import Mathlib.Data.Nat.Bitwise
import Mathlib.Logic.Function.Basic

/-
  Eina lists: insertions, sorted search and sort.

  A list is the address of its first node.  All its nodes
  share one accounting with the last node and the count.  The
  results of the two allocations are parameters.  An access
  through NULL, the `abort` of a walk, an entry outside of
  the merge stack and a loop that is not done after `fuel`
  rounds are `none`.

  Main declarations:
    * `Node`, `Accounting`, `Memory`
    * `appendRelativeList`, `prependRelativeList`
-/

---
-- Memory
---

namespace Efl.Eina.EinaList

open Function

/- `Eina_List` -/
structure Node (N A D : Type) where
  data : D
  next : Option N
  prev : Option N
  accounting : A

/- `Eina_List_Accounting`, with an unsigned `count` -/
structure Accounting (N : Type) where
  last : N
  count : Nat

/- The nodes and the accountings by their addresses. -/
structure Memory (N A D : Type) where
  node : N → Node N A D
  accounting : A → Accounting N

/- The values of an `unsigned int` -/
def uintSize : Nat :=
  2 ^ 32

variable {N A D : Type}

namespace Memory

def data (m : Memory N A D) (n : N) : D :=
  (m.node n).data

def next (m : Memory N A D) (n : N) : Option N :=
  (m.node n).next

def prev (m : Memory N A D) (n : N) : Option N :=
  (m.node n).prev

/- `list->accounting` -/
def owner (m : Memory N A D) (n : N) : A :=
  (m.node n).accounting

/- `list->accounting->last` -/
def last (m : Memory N A D) (n : N) : N :=
  (m.accounting (m.owner n)).last

/- `list->accounting->count` -/
def count (m : Memory N A D) (n : N) : Nat :=
  (m.accounting (m.owner n)).count

variable [DecidableEq N] [DecidableEq A]

omit [DecidableEq A] in
def setNode (m : Memory N A D) (n : N) (l : Node N A D) : Memory N A D :=
  { m with node := update m.node n l }

omit [DecidableEq A] in
def setNext (m : Memory N A D) (n : N) (p : Option N) : Memory N A D :=
  m.setNode n { m.node n with next := p }

omit [DecidableEq A] in
def setPrev (m : Memory N A D) (n : N) (p : Option N) : Memory N A D :=
  m.setNode n { m.node n with prev := p }

omit [DecidableEq A] in
def setData (m : Memory N A D) (n : N) (d : D) : Memory N A D :=
  m.setNode n { m.node n with data := d }

omit [DecidableEq A] in
def setOwner (m : Memory N A D) (n : N) (a : A) : Memory N A D :=
  m.setNode n { m.node n with accounting := a }

omit [DecidableEq N] in
def setLast (m : Memory N A D) (a : A) (l : N) : Memory N A D :=
  { m with
    accounting := update m.accounting a
      { m.accounting a with last := l } }

omit [DecidableEq N] in
def setCount (m : Memory N A D) (a : A) (c : Nat) : Memory N A D :=
  { m with
    accounting := update m.accounting a
      { m.accounting a with count := c } }

end Memory

---
-- Insertions
---

section

variable {N A D : Type} [DecidableEq N] [DecidableEq A]

/- What the two memory pools return for a new list node. -/
structure Allocated (N A : Type) where
  node : Option N
  accounting : Option A

/-
  `_eina_list_setup_accounting`.  Without memory the node is
  freed.
-/
def setupAccounting (m : Memory N A D) (alloc : Option A) (list : N) : Memory N A D × Option N :=
  match alloc with
  | none => (m, none)
  | some a =>
    let m := m.setOwner list a
    let m := m.setLast a list
    (m.setCount a 1, some list)

/- `_eina_list_update_accounting` -/
def updateAccounting (m : Memory N A D) (list newList : N) : Memory N A D :=
  let m := m.setCount (m.owner list)
    ((m.count list + 1) % uintSize)
  m.setOwner newList (m.owner list)

/- `eina_list_append` -/
def append (m : Memory N A D) (alloc : Allocated N A)
    (list : Option N) (data : D) : Memory N A D × Option N :=
  match alloc.node with
  | none => (m, list)
  | some newL =>
    let m := (m.setNext newL none).setData newL data
    match list with
    | none =>
      setupAccounting (m.setPrev newL none)
        alloc.accounting newL
    | some list =>
      let l := m.last list
      let m := m.setLast (m.owner list) newL
      let m := m.setNext l (some newL)
      let m := m.setPrev newL (some l)
      (updateAccounting m list newL, some list)

/- `eina_list_prepend` -/
def prepend (m : Memory N A D) (alloc : Allocated N A)
    (list : Option N) (data : D) : Memory N A D × Option N :=
  match alloc.node with
  | none => (m, list)
  | some newL =>
    let m := (m.setPrev newL none).setNext newL list
    let m := m.setData newL data
    match list with
    | none => setupAccounting m alloc.accounting newL
    | some list =>
      let m := m.setPrev list (some newL)
      (updateAccounting m list newL, some newL)

/- `eina_list_append_relative_list` -/
def appendRelativeList (m : Memory N A D) (alloc : Allocated N A) (list : Option N) (data : D)
    (relative : Option N) : Memory N A D × Option N :=
  match list, relative with
  | some list, some relative =>
    match alloc.node with
    | none => (m, some list)
    | some newL =>
      let m := m.setNext newL (m.next relative)
      let m := m.setData newL data
      let m := match m.next relative with
        | some next => m.setPrev next (some newL)
        | none => m
      let m := m.setNext relative (some newL)
      let m := m.setPrev newL (some relative)
      let m := updateAccounting m list newL
      let m := match m.next newL with
        | some _ => m
        | none => m.setLast (m.owner newL) newL
      (m, some list)
  | _, _ => append m alloc list data

/- `eina_list_prepend_relative_list` -/
def prependRelativeList (m : Memory N A D) (alloc : Allocated N A) (list : Option N) (data : D)
    (relative : Option N) : Memory N A D × Option N :=
  match list, relative with
  | some list, some relative =>
    match alloc.node with
    | none => (m, some list)
    | some newL =>
      let m := m.setPrev newL (m.prev relative)
      let m := m.setNext newL (some relative)
      let m := m.setData newL data
      let m := match m.prev relative with
        | some prev => m.setNext prev (some newL)
        | none => m
      let m := m.setPrev relative (some newL)
      let m := updateAccounting m list newL
      match m.prev newL with
      | some _ => (m, some list)
      | none => (m, some newL)
  | _, _ => prepend m alloc list data

end

---
-- Sorted Lists
---

/- `k` links are followed. -/
def walk (link : N → Option N) : Nat → N → Option N
  | 0, l => some l
  | k + 1, l => (link l).bind (walk link k)

/- The cursor goes from position `tmp` to position `cur`. -/
def moveCursor (m : Memory N A D) (tmp cur : Nat) (ct : N) : Option N :=
  if tmp < cur then
    walk m.next (cur - tmp) ct
  else
    walk m.prev (tmp - cur) ct

/-
  The loop of the search.  `ct` is the node at `cur`, `cmp`
  the last comparison.
-/
def searchLoop (m : Memory N A D) (func : D → D → Int) (data : D) :
    Nat → Nat → Nat → Nat → N → Int → Option (N × Int)
  | fuel, inf, sup, cur, ct, cmp =>
    if inf ≤ sup then
      match fuel with
      | 0 => none
      | fuel + 1 => do
        let tmp := cur
        let cur := inf + (sup - inf) / 2
        let ct ← moveCursor m tmp cur ct
        let cmp := func (m.data ct) data
        if cmp = 0 then
          some (ct, cmp)
        else if cmp < 0 then
          searchLoop m func data fuel (cur + 1) sup cur
            ct cmp
        else if 0 < cur then
          searchLoop m func data fuel inf (cur - 1) cur
            ct cmp
        else
          some (ct, cmp)
    else
      some (ct, cmp)

/-
  `eina_list_search_sorted_near_list`, with what is stored
  in `result_cmp` if the caller `wants` it.
-/
def searchSortedNearList (m : Memory N A D) (fuel : Nat)
    (func : D → D → Int) (list : Option N) (data : D)
    (wants : Bool) : Option (Option N × Option Int) :=
  let result (cmp : Int) := if wants then some cmp else none
  match list with
  | none => some (none, result 0)
  | some list =>
    if m.count list = 1 then
      some (some list, result (func (m.data list) data))
    else
      -- tail, then head
      let ct := m.last list
      let cmp := func (m.data ct) data
      if cmp ≤ 0 then
        some (some ct, result cmp)
      else
        let ct := list
        let cmp := func (m.data ct) data
        if 0 ≤ cmp then
          some (some ct, result cmp)
        else do
          let inf := 1
          let sup := m.count list - 2
          let ct ← m.next list
          if sup < inf then
            let cmp :=
              if wants then func (m.data ct) data else cmp
            some (some ct, result cmp)
          else
            let (ct, cmp) ←
              searchLoop m func data fuel inf sup 1 ct cmp
            some (some ct, result cmp)

/- `eina_list_search_sorted_list` -/
def searchSortedList (m : Memory N A D) (fuel : Nat)
    (func : D → D → Int) (list : Option N) (data : D) : Option (Option N) := do
  let (lnear, cmp) ←
    searchSortedNearList m fuel func list data true
  match lnear with
  | none => some none
  | some lnear => if cmp = some 0 then some (some lnear) else some none

variable [DecidableEq N] [DecidableEq A]

/- `eina_list_sorted_insert` -/
def sortedInsert (m : Memory N A D) (fuel : Nat)
    (func : D → D → Int) (alloc : Allocated N A) (list : Option N)
    (data : D) : Option (Memory N A D × Option N) :=
  match list with
  | none => some (append m alloc none data)
  | some list => do
    let (lnear, cmp) ←
      searchSortedNearList m fuel func (some list) data true
    let cmp ← cmp
    if cmp < 0 then
      some (appendRelativeList m alloc (some list) data
        lnear)
    else
      some (prependRelativeList m alloc (some list) data
        lnear)

---
-- Sort
---

/- `EINA_LIST_SORT_STACK_SIZE` -/
def sortStackSize : Nat :=
  32

omit [DecidableEq N] [DecidableEq A] in
/-
  `eina_list_nth_list`.  The outer `none` is the `abort` at
  its end.
-/
def nthList (m : Memory N A D) (list : Option N) (n : Nat) : Option (Option N) :=
  match list with
  | none => some none
  | some list =>
    if (m.count list + uintSize - 1) % uintSize < n then
      some none
    else if m.count list / 2 < n then
      (walk m.prev (m.count list - 1 - n)
        (m.last list)).map some
    else
      (walk m.next n list).map some

omit [DecidableEq A] in
/- The loop of `eina_list_sort_merge` behind its first node -/
def mergeLoop (func : D → D → Int) : Nat → Memory N A D → N → Option N → Option N →
      Option (Memory N A D)
  | fuel, m, last, some a, some b =>
    match fuel with
    | 0 => none
    | fuel + 1 =>
      if func (m.data a) (m.data b) < 0 then
        let m := m.setNext last (some a)
        mergeLoop func fuel m a (m.next a) (some b)
      else
        let m := m.setNext last (some b)
        mergeLoop func fuel m b (some a) (m.next b)
  | _, m, last, some a, none => some (m.setNext last (some a))
  | _, m, last, none, b => some (m.setNext last b)

omit [DecidableEq A] in
/- `eina_list_sort_merge` -/
def sortMerge (func : D → D → Int) (fuel : Nat)
    (m : Memory N A D) (a b : N) : Option (Memory N A D × N) :=
  if func (m.data a) (m.data b) < 0 then do
    let m ← mergeLoop func fuel m a (m.next a) (some b)
    some (m, a)
  else do
    let m ← mergeLoop func fuel m b (some a) (m.next b)
    some (m, b)

omit [DecidableEq A] in
/- The loop of `eina_list_sort_rebuild_prev` -/
def rebuildPrev : Nat → Memory N A D → Option N → Option N →
      Option (Memory N A D × Option N)
  | _, m, prev, none => some (m, prev)
  | 0, _, _, some _ => none
  | fuel + 1, m, prev, some list =>
    let m := m.setPrev list prev
    rebuildPrev fuel m (some list) (m.next list)

omit [DecidableEq A] in
/-
  The two topmost runs are merged.  The stack is a list, top
  first.
-/
def mergeTop (func : D → D → Int) (fuel : Nat) (m : Memory N A D) :
    List N → Option (Memory N A D × List N)
  | b :: a :: stack => do
    let (m, c) ← sortMerge func fuel m a b
    some (m, c :: stack)
  | _ => none

omit [DecidableEq A] in
/- The loop with `idx &= idx - 1` -/
def mergeBits (func : D → D → Int) (fuel : Nat) : Nat → Nat → Memory N A D → List N →
      Option (Memory N A D × List N)
  | rounds, idx, m, stack =>
    let idx := idx &&& (idx - 1)
    if idx = 0 then
      some (m, stack)
    else
      match rounds with
      | 0 => none
      | rounds + 1 => do
        let (m, stack) ← mergeTop func fuel m stack
        mergeBits func fuel rounds idx m stack

omit [DecidableEq N] [DecidableEq A] in
/- `stack[i++] = a` -/
def push (stack : List N) (a : N) : Option (List N) :=
  if stack.length < sortStackSize then
    some (a :: stack)
  else
    none

omit [DecidableEq A] in
/- Two nodes become a run of their own. -/
def pushPair (func : D → D → Int) (m : Memory N A D) (a b : N)
    (stack : List N) : Option (Memory N A D × List N) :=
  if func (m.data a) (m.data b) < 0 then do
    let stack ← push stack a
    let m := m.setNext a (some b)
    some (m.setNext b none, stack)
  else do
    let stack ← push stack b
    let m := m.setNext b (some a)
    some (m.setNext a none, stack)

omit [DecidableEq A] in
/- The loop over the pairs, with `n` of them behind. -/
def sortPairs (func : D → D → Int) (fuel : Nat) : Nat → Memory N A D → Nat → Option N → List N →
      Option (Memory N A D × List N)
  | _, m, _, none, stack => some (m, stack)
  | 0, _, _, some _, _ => none
  | rounds + 1, m, n, some a, stack =>
    match m.next a with
    | none => (push stack a).map fun stack => (m, stack)
    | some b => do
      let tail := m.next b
      let (m, stack) ← pushPair func m a b stack
      let tmp := n
      let n := n + 1
      let (m, stack) ←
        mergeBits func fuel fuel (n ^^^ tmp) m stack
      sortPairs func fuel rounds m n tail stack

omit [DecidableEq A] in
/-
  The loop that merges what is left on the stack, with `b` on
  its top.
-/
def mergeAll (func : D → D → Int) (fuel : Nat) :
    Memory N A D → N → List N → Option (Memory N A D × N)
  | m, b, [] => some (m, b)
  | m, b, a :: stack => do
    let (m, c) ← sortMerge func fuel m a b
    mergeAll func fuel m c stack

omit [DecidableEq A] in
/- `eina_list_sort`, from the loop over the pairs to `tail` -/
def sortChain (m : Memory N A D) (fuel : Nat) (func : D → D → Int)
    (first : N) : Option (Memory N A D × N × Option N) := do
  let (m, stack) ← sortPairs func fuel fuel m 0 (some first) []
  let (m, list) ← match stack with
    | [] => none
    | b :: stack => mergeAll func fuel m b stack
  let (m, tail) ← rebuildPrev fuel m none (some list)
  some (m, list, tail)

/- `eina_list_sort` -/
def sort (m : Memory N A D) (fuel : Nat) (func : D → D → Int) (list : Option N)
    (limit : Nat) : Option (Memory N A D × Option N) :=
  match list with
  | none => some (m, none)
  | some first => do
    let count := m.count first
    let limit :=
      if limit = 0 ∨ count < limit then count else limit
    let unsort ←
      if limit ≠ count then
        nthList m (some first) limit
      else
        some none
    let m ← match unsort with
      | none => some m
      | some unsort => (m.prev unsort).map fun p => m.setNext p none
    let (m, list, tail) ← sortChain m fuel func first
    let tail ← tail
    match unsort with
    | some unsort =>
      let m := m.setNext tail (some unsort)
      some (m.setPrev unsort (some tail), some list)
    | none => some (m.setLast (m.owner list) tail, some list)

end Efl.Eina.EinaList
