import Efl.Lib.CInt
import Efl.Lib.Runs
import Mathlib.Logic.Function.Basic

/-
  Inlists, and the insertion with a jump table.

  An access through NULL, to an entry outside of the table or
  an `int` that gets too large is `none`.

  Main declarations:
    * `Inlist`, `Memory`
    * `append`, `prepend`, `appendRelative`,
      `prependRelative`
-/

---
-- Inlists
---

namespace Efl.Eina.Inlist

variable {N : Type}

/- `Eina_Inlist`, the links in an item. -/
structure Node (N : Type) where
  next : Option N
  prev : Option N
  last : Option N

/- The links of all items. -/
abbrev Memory (N : Type) :=
  N → Node N

section

variable [DecidableEq N]

namespace Memory

def setNext (mem : Memory N) (n : N) (x : Option N) : Memory N :=
  fun m => if m = n then { mem m with next := x } else mem m

def setPrev (mem : Memory N) (n : N) (x : Option N) : Memory N :=
  fun m => if m = n then { mem m with prev := x } else mem m

def setLast (mem : Memory N) (n : N) (x : Option N) : Memory N :=
  fun m => if m = n then { mem m with last := x } else mem m

end Memory

/- The loop over the list in `eina_inlist_append`. -/
def lastOf (mem : Memory N) : Nat → N → Option N
  | fuel, l =>
    match (mem l).next with
    | none => some l
    | some next =>
      match fuel with
      | 0 => none
      | fuel + 1 => lastOf mem fuel next

/- `eina_inlist_append` -/
def append (mem : Memory N) (fuel : Nat) (list : Option N) (newL : N) : Option (Memory N × N) :=
  let mem := mem.setNext newL none
  match list with
  | none =>
    some ((mem.setPrev newL none).setLast newL (some newL),
      newL)
  | some list => do
    let l ← match (mem list).last with
      | some l => some l
      | none => lastOf mem fuel list
    some (((mem.setNext l (some newL)).setPrev newL
      (some l)).setLast list (some newL), list)

/- `eina_inlist_prepend` -/
def prepend (mem : Memory N) (list : Option N) (newL : N) : Memory N × N :=
  let mem := mem.setPrev newL none
  match list with
  | none => ((mem.setNext newL none).setLast newL (some newL), newL)
  | some list =>
    let mem := (mem.setNext newL (some list)).setPrev list
      (some newL)
    ((mem.setLast newL (mem list).last).setLast list none,
      newL)

/- `eina_inlist_append_relative` -/
def appendRelative (mem : Memory N) (fuel : Nat) (list : Option N) (newL : N)
    (relative : Option N) : Option (Memory N × N) :=
  match relative, list with
  | some relative, some list =>
    let mem := match (mem relative).next with
      | some next =>
        (mem.setNext newL (some next)).setPrev next
          (some newL)
      | none => mem.setNext newL none
    let mem := (mem.setNext relative (some newL)).setPrev
      newL (some relative)
    let mem := if (mem newL).next = none then
        mem.setLast list (some newL)
      else
        mem
    some (mem, list)
  | _, _ => append mem fuel list newL

/- `eina_inlist_prepend_relative` -/
def prependRelative (mem : Memory N) (list : Option N)
    (newL : N) (relative : Option N) : Memory N × N :=
  match relative, list with
  | some relative, some list =>
    let mem := mem.setPrev newL (mem relative).prev
    let mem := (mem.setNext newL (some relative)).setPrev
      relative (some newL)
    match (mem newL).prev with
    | some prev => (mem.setNext prev (some newL), list)
    | none =>
      ((mem.setLast newL (mem list).last).setLast list
        none, newL)
  | _, _ => prepend mem list newL

end

---
-- The Jump Table
---

open Function

/- `EINA_INLIST_JUMP_SIZE` -/
def jumpSize : Nat :=
  256

/- `Eina_Inlist_Sorted_State` -/
structure SortedState (N : Type) where
  jumpTable : Nat → Option N
  jumpLimit : Nat
  jumpDiv : Nat
  inserted : Nat

/- `eina_inlist_sorted_state_new` -/
def SortedState.new : SortedState N where
  jumpTable _ := none
  jumpLimit := 0
  jumpDiv := 1
  inserted := 0

/- A node in the table that is going to be accessed. -/
def SortedState.entry (state : SortedState N) (i : Nat) : Option N :=
  if i < jumpSize then state.jumpTable i else none

/- `_eina_inlist_sorted_state_compact` -/
def compact (state : SortedState N) : SortedState N where
  jumpTable :=
    (List.range (jumpSize / 2 - 1)).foldl
      (fun table j =>
        update table (j + 1) (table (2 * (j + 1))))
      state.jumpTable
  jumpLimit := state.jumpLimit / 2
  jumpDiv := state.jumpDiv * 2
  inserted := state.inserted

/- The entries behind the new item move back by one node. -/
def shift (mem : Memory N) : Nat → Nat → SortedState N → Option (SortedState N)
  | 0, _, state => some state
  | n + 1, idx, state => do
    let e ← state.entry idx
    shift mem n (idx + 1)
      { state with
        jumpTable := update state.jumpTable idx
          (mem e).prev }

/-
  The loop that rebuilds the end of the table; `last` is the
  node that it has come to.
-/
def rebuild (mem : Memory N) : Nat → SortedState N → N → Nat → Nat →
      Option (SortedState N)
  | fuel, state, last, start, jumpCount =>
    match (mem last).next with
    | none => some state
    | some next =>
      match fuel with
      | 0 => none
      | fuel + 1 =>
        if jumpCount ≠ state.jumpDiv then
          rebuild mem fuel state next start (jumpCount + 1)
        else if state.jumpLimit = start ∧
            state.jumpLimit = jumpSize then
          if CInt.intMax < state.jumpDiv * 2 then
            none
          else
            let state := compact state
            rebuild mem fuel state next
              (state.jumpLimit - 1) (jumpCount + 1)
        else if jumpSize ≤ start then
          none
        else
          let limit := if state.jumpLimit = start then
              state.jumpLimit + 1
            else
              state.jumpLimit
          rebuild mem fuel
            { state with
              jumpLimit := limit
              jumpTable := update
                state.jumpTable start (some last) }
            next (start + 1) 1

/- `_eina_inlist_sorted_state_insert` -/
def stateInsert (mem : Memory N) (state : SortedState N)
    (idx offset : Nat) : Option (SortedState N) :=
  if CInt.intMax < state.inserted + 1 then
    none
  else do
    let state := { state with inserted := state.inserted + 1 }
    let idx := if offset ≠ 0 then idx + 1 else idx
    let state ← shift mem (state.jumpLimit - idx) idx state
    let start := state.jumpLimit - 3
    let last ← state.entry start
    rebuild mem state.inserted state last (start + 1) 0

---
-- Sorted Insertion
---

/-
  The loop of both searches: the position where it ends, the
  node there, and how that one compares with the item.  It
  fetches a node by its position, from the node before.
-/
def search (func : N → N → Int) (item : N) (fetch : Nat → N → Nat → Option N) :
    Nat → Nat → Nat → Nat × N × Int →
      Option (Nat × N × Int)
  | fuel, inf, sup, found =>
    if sup < inf then
      some found
    else
      match fuel with
      | 0 => none
      | fuel + 1 => do
        let cur := inf + (sup - inf) / 2
        let ct ← fetch found.1 found.2.1 cur
        let cmp := func ct item
        let found := (cur, ct, cmp)
        if cmp = 0 then
          some found
        else if cmp < 0 then
          search func item fetch fuel (cur + 1) sup found
        else if 0 < cur then
          search func item fetch fuel inf (cur - 1) found
        else
          some found

/- The search in the jump table. -/
def searchTable (func : N → N → Int) (state : SortedState N)
    (item : N) : Option (Nat × N × Int) := do
  let ct ← state.entry 0
  search func item (fun _ _ cur => state.entry cur)
    state.jumpLimit 0 (state.jumpLimit - 1)
    (0, ct, func ct item)

/- The node some steps on. -/
def forward (mem : Memory N) : Nat → N → Option N
  | 0, ct => some ct
  | n + 1, ct => do
    let ct ← (mem ct).next
    forward mem n ct

/- The node some steps back. -/
def backward (mem : Memory N) : Nat → N → Option N
  | 0, ct => some ct
  | n + 1, ct => do
    let ct ← (mem ct).prev
    backward mem n ct

/- The search between two entries walks in the list. -/
def walk (mem : Memory N) (tmp : Nat) (ct : N) (cur : Nat) : Option N :=
  if tmp < cur then
    forward mem (cur - tmp) ct
  else
    backward mem (tmp - cur) ct

/- A list, its state, and the links of all items. -/
structure World (N : Type) where
  mem : Memory N
  list : Option N
  state : SortedState N

/- No item is inserted yet. -/
def World.empty (mem : Memory N) : World N where
  mem := mem
  list := none
  state := .new

variable [DecidableEq N]

/-
  `eina_inlist_sorted_state_insert` behind the search in the
  jump table.
-/
def insertFound (func : N → N → Int) (w : World N) (list item : N) :
    Nat × N × Int → Option (World N)
  | (cur, ct, cmp) =>
    let state := w.state
    if cur = 0 ∧ 0 < cmp then do
      let (mem, list) :=
        prependRelative w.mem (some list) item (some ct)
      let state ← stateInsert mem state 0 0
      some ⟨mem, some list, state⟩
    else if cmp < 0 ∧ some ct = (w.mem list).last then do
      let (mem, list) ←
        append w.mem state.inserted (some list) item
      let state ←
        stateInsert mem state (state.jumpLimit - 1) 1
      some ⟨mem, some list, state⟩
    else if CInt.intMax <
        cur * state.jumpDiv + state.jumpDiv + 1 then
      none
    else do
      let cur := cur * state.jumpDiv
      -- A negative `inf` is set to zero.
      let inf := cur - state.jumpDiv - 1
      let sup := min (cur + state.jumpDiv + 1)
        (state.inserted - 1)
      let (cur, ct, cmp) ← search func item (walk w.mem)
        state.inserted inf sup (cur, ct, cmp)
      if cmp ≤ 0 then do
        let cur := cur + 1
        let (mem, list) ← appendRelative w.mem
          state.inserted (some list) item (some ct)
        let state ← stateInsert mem state
          (cur / state.jumpDiv) (cur % state.jumpDiv)
        some ⟨mem, some list, state⟩
      else do
        let (mem, list) :=
          prependRelative w.mem (some list) item (some ct)
        let state ← stateInsert mem state
          (cur / state.jumpDiv) (cur % state.jumpDiv)
        some ⟨mem, some list, state⟩

/- The same for a list of one item. -/
def insertSecond (func : N → N → Int) (w : World N) (list item : N) : Option (World N) :=
  let cmp := func list item
  let state :=
    { w.state with
      jumpLimit := 2
      inserted := 2 }
  if cmp < 0 then do
    let state :=
      { state with
        jumpTable :=
          update state.jumpTable 1 (some item) }
    let (mem, list) ← append w.mem 1 (some list) item
    some ⟨mem, some list, state⟩
  else
    let state :=
      { state with
        jumpTable := update
          (update state.jumpTable 1
            (state.jumpTable 0))
          0 (some item) }
    let (mem, list) := prepend w.mem (some list) item
    some ⟨mem, some list, state⟩

/- `eina_inlist_sorted_state_insert` -/
def sortedStateInsert (func : N → N → Int) (w : World N) (item : N) : Option (World N) :=
  let state := w.state
  match w.list with
  | none => do
    let state :=
      { state with
        inserted := 1
        jumpLimit := 1
        jumpTable :=
          update state.jumpTable 0 (some item) }
    let (mem, list) ← append w.mem 0 none item
    some ⟨mem, some list, state⟩
  | some list =>
    match (w.mem list).next with
    | none => insertSecond func w list item
    | some _ => do
      let found ← searchTable func state item
      insertFound func w list item found

end Efl.Eina.Inlist
