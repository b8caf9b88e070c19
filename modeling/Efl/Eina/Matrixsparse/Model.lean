import Efl.Lib.Heap

/-
  `Eina_Matrixsparse`: a list of rows, each one with a list of
  cells.

  The functions on rows and those on cells are the same ones,
  for another record.  Here they are written once, for nodes
  with an index, and then applied to both.

  `none` is a fault: an access to a node that is not
  allocated, a failed `assert`, or a list without an end.

  Main declarations:
    * `Matrixsparse.idxGet`, `Matrixsparse.idxAdd`
    * `Matrixsparse.unlink`
-/

---
-- Lists of Rows and of Cells
---

namespace Efl.Eina

/- An `unsigned long` difference. -/
def ulongSub (a b : Nat) : Nat :=
  (2 ^ 64 + a - b) % 2 ^ 64

namespace Matrixsparse

/- A row or a cell, where `idx` is `row` or `col`. -/
structure Node (N α : Type) where
  next : Option N
  prev : Option N
  idx : Nat
  val : α

/-
  The pointers into a list: `rows`, `last_row` and
  `last_used`, or `cols`, `last_col` and `last_used`.
-/
structure Ends (N : Type) where
  first : Option N
  last : Option N
  lastUsed : Option N

abbrev Nodes (N α : Type) :=
  Heap N (Node N α)

/- The sign of `dir`. -/
inductive Dir where
  | forward
  | backward
  deriving DecidableEq

/- `next` or `prev` -/
def Node.along {N α : Type} (x : Node N α) : Dir → Option N
  | .forward => x.next
  | .backward => x.prev

/- A node with index `i` lies behind the index `idx`. -/
def Dir.Passed (dir : Dir) (idx i : Nat) : Prop :=
  match dir with
  | .forward => idx < i
  | .backward => i < idx

instance (dir : Dir) (idx i : Nat) : Decidable (dir.Passed idx i) :=
  match dir with
  | .forward => inferInstanceAs (Decidable (idx < i))
  | .backward => inferInstanceAs (Decidable (i < idx))

section

variable {N α : Type} [DecidableEq N]

/-
  `_eina_matrixsparse_row_find_parms_get` and
  `_eina_matrixsparse_row_cell_find_parms_get`
-/
def findParmsGet (h : Nodes N α) (e : Ends N) (idx : Nat) : Option (N × Dir) := do
  let first ← e.first
  let f ← h.read first
  let last ← e.last
  let l ← h.read last
  let (n, dir, dist) :=
    if ulongSub idx f.idx > ulongSub l.idx idx then
      (last, Dir.backward, ulongSub l.idx idx)
    else
      (first, Dir.forward, ulongSub idx f.idx)
  match e.lastUsed with
  | none => some (n, dir)
  | some used => do
    let u ← h.read used
    if u.idx < idx then
      if dist > ulongSub idx u.idx then
        some (used, .forward)
      else
        some (n, dir)
    else if dist > ulongSub u.idx idx then
      some (used, .backward)
    else
      some (n, dir)

/- The loops of `_row_idx_get` and `_row_cell_idx_get`. -/
def findFrom (h : Nodes N α) (idx : Nat) (dir : Dir) : Nat → Option N → Option (Option N)
  | _, none => some none
  | 0, some _ => none
  | fuel + 1, some n => do
    let x ← h.read n
    if x.idx = idx then
      some (some n)
    else if dir.Passed idx x.idx then
      some none
    else
      findFrom h idx dir fuel (x.along dir)

/- The test for `last_used` in these functions. -/
def usedIs (h : Nodes N α) (e : Ends N) (idx : Nat) : Option Bool :=
  match e.lastUsed with
  | none => some false
  | some used => do
    let u ← h.read used
    some (decide (u.idx = idx))

/-
  `_eina_matrixsparse_row_idx_get` and
  `_eina_matrixsparse_row_cell_idx_get`
-/
def idxGet (h : Nodes N α) (e : Ends N) (idx : Nat) : Option (Ends N × Option N) :=
  match e.first with
  | none => some (e, none)
  | some first => do
    let f ← h.read first
    if f.idx = idx then
      some (e, some first)
    else if f.idx > idx then
      some (e, none)
    else do
      let last ← e.last
      let l ← h.read last
      if l.idx = idx then
        some (e, some last)
      else if l.idx < idx then
        some (e, none)
      else do
        let used ← usedIs h e idx
        if used then
          some (e, e.lastUsed)
        else do
          let (n, dir) ← findParmsGet h e idx
          let found ← findFrom h idx dir h.live.card (some n)
          match found with
          | none => some (e, none)
          | some n => some ({ e with lastUsed := some n }, some n)

/- The loops of the functions that find siblings. -/
def passFrom (h : Nodes N α) (idx : Nat) (dir : Dir) : Nat → Option N → Option N
  | _, none => none
  | 0, some _ => none
  | fuel + 1, some n => do
    let x ← h.read n
    if dir.Passed idx x.idx then
      some n
    else
      passFrom h idx dir fuel (x.along dir)

/-
  `_eina_matrixsparse_row_idx_siblings_find` and
  `_eina_matrixsparse_row_cell_idx_siblings_find`
-/
def siblingsFind (h : Nodes N α) (e : Ends N) (idx : Nat) : Option (Option N × Option N) := do
  let (n, dir) ← findParmsGet h e idx
  let n ← passFrom h idx dir h.live.card (some n)
  let x ← h.read n
  match dir with
  | .forward => some (x.prev, some n)
  | .backward => some (some n, x.next)

/-
  `_eina_matrixsparse_row_idx_add` and
  `_eina_matrixsparse_row_cell_idx_add`, with the node `n`
  that is allocated and what else it holds.
-/
def idxAdd (h : Nodes N α) (e : Ends N) (idx : Nat) (n : N)
    (val : α) : Option (Nodes N α × Ends N) :=
  match e.first with
  | none =>
    some (h.alloc n ⟨none, none, idx, val⟩,
      ⟨some n, some n, some n⟩)
  | some first => do
    let f ← h.read first
    if idx < f.idx then do
      let h ← h.modify first
        fun x => { x with prev := some n }
      some (h.alloc n ⟨some first, none, idx, val⟩,
        { e with
          first := some n
          lastUsed := some n })
    else do
      let last ← e.last
      let l ← h.read last
      if idx > l.idx then do
        let h ← h.modify last
          fun x => { x with next := some n }
        some (h.alloc n ⟨none, some last, idx, val⟩,
          { e with
            last := some n
            lastUsed := some n })
      else do
        let (prev, next) ← siblingsFind h e idx
        let p ← prev
        let q ← next
        let h ← h.modify p
          fun x => { x with next := some n }
        let h ← h.modify q
          fun x => { x with prev := some n }
        some (h.alloc n ⟨some q, some p, idx, val⟩,
          { e with lastUsed := some n })

/-
  `_eina_matrixsparse_row_unlink` and
  `_eina_matrixsparse_cell_unlink`
-/
def unlink (h : Nodes N α) (e : Ends N) (n : N) : Option (Nodes N α × Ends N) := do
  let x ← h.read n
  let lastUsed :=
    if e.lastUsed = some n then
      match x.next with
      | some next => some next
      | none => x.prev
    else
      e.lastUsed
  let last := if e.last = some n then x.prev else e.last
  let first := if e.first = some n then x.next else e.first
  let h ←
    match x.next, x.prev with
    | some next, some prev => do
      let h ← h.modify next
        fun y => { y with prev := some prev }
      h.modify prev fun y => { y with next := some next }
    | some next, none => h.modify next fun y => { y with prev := none }
    | none, some prev => h.modify prev fun y => { y with next := none }
    | none, none => some h
  some (h, ⟨first, last, lastUsed⟩)

end

---
-- The Matrix
---

/- What a cell holds besides its links and `col`. -/
structure Cell (R D : Type) where
  data : Option D
  parent : R

end Matrixsparse

open Matrixsparse

/-
  `Eina_Matrixsparse`.  What a row holds besides its links and
  `row` are its pointers into the list of cells.
-/
structure Matrixsparse (R C D : Type) where
  ends : Ends R
  rows : Nodes R (Ends C)
  cells : Nodes C (Cell R D)
  sizeRows : Nat
  sizeCols : Nat

namespace Matrixsparse

section

variable {R C D : Type} [DecidableEq R] [DecidableEq C]

/- `eina_matrixsparse_new` -/
def new (rows cols : Nat) (row : R → Node R (Ends C)) (cell : C → Node C (Cell R D)) :
    Option (Matrixsparse R C D) :=
  if 0 < rows ∧ 0 < cols then
    some
      { ends := ⟨none, none, none⟩
        rows := ⟨∅, row⟩
        cells := ⟨∅, cell⟩
        sizeRows := rows
        sizeCols := cols }
  else
    none

/- `_eina_matrixsparse_row_idx_get` -/
def rowIdxGet (m : Matrixsparse R C D) (row : Nat) : Option (Matrixsparse R C D × Option R) := do
  let (ends, r) ← idxGet m.rows m.ends row
  some ({ m with ends := ends }, r)

/- The row with other pointers to its cells. -/
def setEnds (m : Matrixsparse R C D) (r : R) (ends : Ends C) : Option (Matrixsparse R C D) := do
  let rows ← m.rows.modify r fun x => { x with val := ends }
  some { m with rows := rows }

/- `_eina_matrixsparse_row_cell_idx_get` -/
def rowCellIdxGet (m : Matrixsparse R C D) (r : R)
    (col : Nat) : Option (Matrixsparse R C D × Option C) := do
  let x ← m.rows.read r
  let (ends, c) ← idxGet m.cells x.val col
  let m ← m.setEnds r ends
  some (m, c)

/- `_eina_matrixsparse_cell_idx_get` -/
def cellIdxGet (m : Matrixsparse R C D) (row col : Nat) :
    Option (Matrixsparse R C D × Option C) := do
  let (m, r) ← m.rowIdxGet row
  match r with
  | none => some (m, none)
  | some r => m.rowCellIdxGet r col

/- `eina_matrixsparse_data_idx_get` -/
def dataIdxGet (m : Matrixsparse R C D) (row col : Nat) :
    Option (Matrixsparse R C D × Option D) := do
  let (m, c) ← m.cellIdxGet row col
  match c with
  | none => some (m, none)
  | some c => do
    let x ← m.cells.read c
    some (m, x.val.data)

/- What the memory pools return for a row and for a cell. -/
structure Alloc (R C : Type) where
  row : Option R
  cell : Option C

/- `_eina_matrixsparse_row_idx_add` -/
def rowIdxAdd (m : Matrixsparse R C D) (row : Nat) (alloc : Option R) :
    Option (Matrixsparse R C D × Option R) :=
  match alloc with
  | none => some (m, none)
  | some r => do
    let (rows, ends) ←
      idxAdd m.rows m.ends row r ⟨none, none, none⟩
    some
      ({ m with
        rows := rows
        ends := ends }, some r)

/- `_eina_matrixsparse_row_cell_idx_add` -/
def rowCellIdxAdd (m : Matrixsparse R C D) (r : R) (col : Nat)
    (data : Option D) (alloc : Option C) : Option (Matrixsparse R C D × Option C) :=
  match alloc with
  | none => some (m, none)
  | some c => do
    let x ← m.rows.read r
    let (cells, ends) ←
      idxAdd m.cells x.val col c ⟨data, r⟩
    let m ← { m with cells := cells }.setEnds r ends
    some (m, some c)

/- `_eina_matrixsparse_row_unlink` -/
def rowUnlink (m : Matrixsparse R C D) (r : R) : Option (Matrixsparse R C D) := do
  let (rows, ends) ← unlink m.rows m.ends r
  some
    { m with
      rows := rows
      ends := ends }

/- `_eina_matrixsparse_cell_unlink` -/
def cellUnlink (m : Matrixsparse R C D) (c : C) : Option (Matrixsparse R C D) := do
  let x ← m.cells.read c
  let y ← m.rows.read x.val.parent
  let (cells, ends) ← unlink m.cells y.val c
  { m with cells := cells }.setEnds x.val.parent ends

/- `_eina_matrixsparse_cell_free` -/
def cellFree (m : Matrixsparse R C D) (c : C) : Option (Matrixsparse R C D) := do
  let cells ← m.cells.free c
  some { m with cells := cells }

/- `_eina_matrixsparse_row_cells_free`, from a cell on. -/
def rowCellsFree : Nat → Matrixsparse R C D → Option C →
      Option (Matrixsparse R C D)
  | _, m, none => some m
  | 0, _, some _ => none
  | fuel + 1, m, some c => do
    let x ← m.cells.read c
    let m ← m.cellFree c
    rowCellsFree fuel m x.next

/- `_eina_matrixsparse_row_free` -/
def rowFree (m : Matrixsparse R C D) (r : R) : Option (Matrixsparse R C D) := do
  let x ← m.rows.read r
  let m ← rowCellsFree m.cells.live.card m x.val.first
  let rows ← m.rows.free r
  some { m with rows := rows }

/-
  The first half of `_eina_matrixsparse_cell_idx_add`: the
  row, which may be a new one.
-/
def rowGetOrAdd (m : Matrixsparse R C D) (row : Nat) (alloc : Option R) :
    Option (Matrixsparse R C D × Option R) := do
  let (m, r) ← m.rowIdxGet row
  match r with
  | some r => some (m, some r)
  | none => m.rowIdxAdd row alloc

/-
  The second half: a row that stays without cells is freed.
-/
def addToRow (m : Matrixsparse R C D) (r : R) (col : Nat)
    (data : Option D) (alloc : Option C) : Option (Matrixsparse R C D × Bool) := do
  let (m, c) ← m.rowCellIdxAdd r col data alloc
  match c with
  | some _ => some (m, true)
  | none => do
    let x ← m.rows.read r
    match x.val.first with
    | some _ => some (m, false)
    | none => do
      let m ← m.rowUnlink r
      let m ← m.rowFree r
      some (m, false)

/- `_eina_matrixsparse_cell_idx_add` -/
def cellIdxAdd (m : Matrixsparse R C D) (row col : Nat)
    (data : Option D) (alloc : Alloc R C) : Option (Matrixsparse R C D × Bool) := do
  let (m, r) ← m.rowGetOrAdd row alloc.row
  match r with
  | none => some (m, false)
  | some r => m.addToRow r col data alloc.cell

/- `cell->data = data` -/
def cellSet (m : Matrixsparse R C D) (c : C) (data : Option D) : Option (Matrixsparse R C D) := do
  let cells ← m.cells.modify c fun x =>
    { x with val := { x.val with data := data } }
  some { m with cells := cells }

/- `eina_matrixsparse_data_idx_set` -/
def dataIdxSet (m : Matrixsparse R C D) (row col : Nat)
    (data : Option D) (alloc : Alloc R C) : Option (Matrixsparse R C D × Bool) :=
  if row < m.sizeRows ∧ col < m.sizeCols then do
    let (m, c) ← m.cellIdxGet row col
    match c with
    | some c => do
      let m ← m.cellSet c data
      some (m, true)
    | none => m.cellIdxAdd row col data alloc
  else
    some (m, false)

/- `eina_matrixsparse_data_idx_replace`, also with `p_old`. -/
def dataIdxReplace (m : Matrixsparse R C D) (row col : Nat)
    (data : Option D) (alloc : Alloc R C) : Option (Matrixsparse R C D × Bool × Option D) :=
  if row < m.sizeRows ∧ col < m.sizeCols then do
    let (m, c) ← m.cellIdxGet row col
    match c with
    | some c => do
      let x ← m.cells.read c
      let m ← m.cellSet c data
      some (m, true, x.val.data)
    | none => do
      let (m, result) ← m.cellIdxAdd row col data alloc
      some (m, result, none)
  else
    some (m, false, none)

/- `eina_matrixsparse_row_idx_clear` -/
def rowIdxClear (m : Matrixsparse R C D) (row : Nat) : Option (Matrixsparse R C D × Bool) :=
  if row < m.sizeRows then do
    let (m, r) ← m.rowIdxGet row
    match r with
    | none => some (m, true)
    | some r => do
      let m ← m.rowUnlink r
      let m ← m.rowFree r
      some (m, true)
  else
    some (m, false)

/- The body of the loop of `column_idx_clear`. -/
def rowColumnClear (m : Matrixsparse R C D) (r : R)
    (col : Nat) : Option (Matrixsparse R C D) := do
  let (m, c) ← m.rowCellIdxGet r col
  match c with
  | none => some m
  | some c => do
    let x ← m.rows.read r
    if x.val.first ≠ some c ∨ x.val.last ≠ some c then do
      let m ← m.cellUnlink c
      m.cellFree c
    else do
      let m ← m.rowUnlink r
      m.rowFree r

/- The loop of `eina_matrixsparse_column_idx_clear`. -/
def columnClearFrom (col : Nat) : Nat → Matrixsparse R C D → Option R →
      Option (Matrixsparse R C D)
  | _, m, none => some m
  | 0, _, some _ => none
  | fuel + 1, m, some r => do
    let x ← m.rows.read r
    let m ← m.rowColumnClear r col
    columnClearFrom col fuel m x.next

/- `eina_matrixsparse_column_idx_clear` -/
def columnIdxClear (m : Matrixsparse R C D) (col : Nat) : Option (Matrixsparse R C D × Bool) :=
  if col < m.sizeCols then do
    let m ← columnClearFrom col m.rows.live.card m
      m.ends.first
    some (m, true)
  else
    some (m, false)

/- `eina_matrixsparse_cell_clear` -/
def cellClear (m : Matrixsparse R C D) (c : C) : Option (Matrixsparse R C D) := do
  let m ← m.cellUnlink c
  m.cellFree c

/- `eina_matrixsparse_cell_idx_clear` -/
def cellIdxClear (m : Matrixsparse R C D) (row col : Nat) : Option (Matrixsparse R C D × Bool) :=
  if row < m.sizeRows ∧ col < m.sizeCols then do
    let (m, c) ← m.cellIdxGet row col
    match c with
    | none => some (m, true)
    | some c => do
      let m ← m.cellClear c
      some (m, true)
  else
    some (m, false)

end

end Matrixsparse

end Efl.Eina

---
-- Resizing
---

namespace Efl.Eina.Matrixsparse

section

variable {R C D : Type} [DecidableEq R] [DecidableEq C]

/-
  The first loop of `eina_matrixsparse_size_set`: the rows at
  the end that are freed, and the row where it stops.
-/
def dropRows (rows : Nat) : Nat → Matrixsparse R C D → Option R →
      Option (Matrixsparse R C D × Option R)
  | _, m, none => some (m, none)
  | 0, _, some _ => none
  | fuel + 1, m, some r => do
    let x ← m.rows.read r
    if rows ≤ x.idx then do
      let m ← m.rowFree r
      dropRows rows fuel m x.prev
    else
      some (m, some r)

/- The end of the list of rows after this loop. -/
def cutRows (m : Matrixsparse R C D) (r : Option R) : Option (Matrixsparse R C D) :=
  match r with
  | none =>
    some
      { m with
        ends :=
          { m.ends with
            first := none
            last := none } }
  | some r =>
    if some r ≠ m.ends.last then do
      let rows ← m.rows.modify r
        fun x => { x with next := none }
      some
        { m with
          rows := rows
          ends := { m.ends with last := some r } }
    else
      some m

/- The loop over the cells of a row, from its end. -/
def dropCells (cols : Nat) : Nat → Matrixsparse R C D → Option C →
      Option (Matrixsparse R C D × Option C)
  | _, m, none => some (m, none)
  | 0, _, some _ => none
  | fuel + 1, m, some c => do
    let x ← m.cells.read c
    if cols ≤ x.idx then do
      let m ← m.cellFree c
      dropCells cols fuel m x.prev
    else
      some (m, some c)

/- `(used) && (used->idx >= bound)` -/
def usedAbove {N α : Type} [DecidableEq N] (h : Nodes N α)
    (e : Ends N) (bound : Nat) : Option Bool :=
  match e.lastUsed with
  | none => some false
  | some used => do
    let u ← h.read used
    some (decide (bound ≤ u.idx))

/- The links past `n`, a row that is freed then. -/
def passBy {N α : Type} [DecidableEq N] (h : Nodes N α)
    (e : Ends N) (n : N) : Option (Nodes N α × Ends N) := do
  let x ← h.read n
  let (h, e) ←
    match x.next with
    | some next => do
      let h ← h.modify next
        fun y => { y with prev := x.prev }
      some (h, e)
    | none => some (h, { e with last := x.prev })
  match x.prev with
  | some prev => do
    let h ← h.modify prev
      fun y => { y with next := x.next }
    some (h, e)
  | none => some (h, { e with first := x.next })

/-
  The branch for a row without cells.  `update` is
  `update_last_used_row`.
-/
def dropRow (m : Matrixsparse R C D) (update : Bool) (r : R) : Option (Matrixsparse R C D) := do
  let x ← m.rows.read r
  let m ← m.setEnds r
    { x.val with
      first := none
      last := none }
  let (rows, ends) ← passBy m.rows m.ends r
  let m ← { m with rows := rows, ends := ends }.rowFree r
  if update ∧ m.ends.lastUsed = some r then
    some { m with ends := { m.ends with lastUsed := x.next } }
  else
    some m

/- The branch for a row of which the cells up to `c` stay. -/
def keepRow (m : Matrixsparse R C D) (update : Bool) (r : R)
    (c : C) : Option (Matrixsparse R C D) := do
  let x ← m.rows.read r
  let m ←
    if some c ≠ x.val.last then do
      let cells ← m.cells.modify c
        fun y => { y with next := none }
      { m with cells := cells }.setEnds r
        { x.val with last := some c }
    else
      some m
  if update then
    m.setEnds r
      { x.val with
        last := some c
        lastUsed := some c }
  else
    some m

/- The cells of one row, and the row if none is left. -/
def cutRow (m : Matrixsparse R C D) (update : Bool) (cols : Nat)
    (r : R) : Option (Matrixsparse R C D) := do
  let x ← m.rows.read r
  let updateCol ← usedAbove m.cells x.val cols
  let (m, c) ← dropCells cols m.cells.live.card m x.val.last
  match c with
  | none => m.dropRow update r
  | some c => m.keepRow updateCol r c

/- The second loop of `eina_matrixsparse_size_set`. -/
def cutColumns (update : Bool) (cols : Nat) : Nat → Matrixsparse R C D → Option R →
      Option (Matrixsparse R C D)
  | _, m, none => some m
  | 0, _, some _ => none
  | fuel + 1, m, some r => do
    let x ← m.rows.read r
    let m ← m.cutRow update cols r
    cutColumns update cols fuel m x.next

/- `last_used` is behind the last row. -/
def usedBehind (m : Matrixsparse R C D) : Option Bool :=
  match m.ends.lastUsed with
  | none => some false
  | some used =>
    match m.ends.last with
    | none => some true
    | some last => do
      let u ← m.rows.read used
      let l ← m.rows.read last
      some (decide (u.idx > l.idx))

/- `eina_matrixsparse_size_set` -/
def sizeSet (m : Matrixsparse R C D) (rows cols : Nat) : Option (Matrixsparse R C D × Bool) :=
  if ¬ (0 < rows ∧ 0 < cols) then
    some (m, false)
  else if rows = m.sizeRows ∧ cols = m.sizeCols then
    some (m, true)
  else do
    let update ← usedAbove m.rows m.ends rows
    let (m, r) ←
      dropRows rows m.rows.live.card m m.ends.last
    let m ← m.cutRows r
    let m : Matrixsparse R C D :=
      if update then
        { m with
          ends := { m.ends with lastUsed := m.ends.last } }
      else
        m
    let m ← cutColumns update cols m.rows.live.card m
      m.ends.first
    let behind ← m.usedBehind
    let ends :=
      if behind then
        { m.ends with lastUsed := m.ends.last }
      else
        m.ends
    some
      ({ m with
        ends := ends
        sizeRows := rows
        sizeCols := cols }, true)

end

end Efl.Eina.Matrixsparse
