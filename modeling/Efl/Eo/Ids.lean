import Efl.Lib.Heap

/-
  The tables that hide the addresses of objects behind ids.

  The tables of one domain; an id has the numbers of a mid
  table, of a table and of an entry, and the generation of
  the entry.  `none` is an access to memory that is not there.

  Main declarations:
    * `Entry`, `Table`, `TableData`
    * `compose`, and what it takes apart
-/

---
-- Ids
---

namespace Efl.Eo.Ids

/- `MAX_MID_TABLE_ID`, `MAX_TABLE_ID` -/
def maxMidTableId : Nat :=
  2048

def maxTableId : Nat :=
  2046

/- `MAX_ENTRY_ID`, `MAX_GENERATIONS` -/
def maxEntryId : Nat :=
  2045

def maxGenerations : Nat :=
  1024

/- `EO_COMPOSE_PARTIAL_ID` -/
def composePartial (mid tab : Nat) : Nat :=
  (1 <<< 46) ||| ((mid &&& 2047) <<< 32) |||
    ((tab &&& 2047) <<< 21)

/- `EO_COMPOSE_FINAL_ID` -/
def composeFinal (partialId entry domain generation : Nat) : Nat :=
  partialId ||| ((domain &&& 3) <<< 43) |||
    ((entry &&& 2047) <<< 10) ||| (generation &&& 1023)

/- What `EO_DECOMPOSE_ID` and the domain take from an id. -/
def midOf (id : Nat) : Nat :=
  (id >>> 32) &&& 2047

def tabOf (id : Nat) : Nat :=
  (id >>> 21) &&& 2047

def entryOf (id : Nat) : Nat :=
  (id >>> 10) &&& 2047

def generationOf (id : Nat) : Nat :=
  id &&& 1023

def domainOf (id : Nat) : Nat :=
  (id >>> 43) &&& 3

/- `MASK_OBJ_TAG` -/
def tagOf (id : Nat) : Nat :=
  id &&& (1 <<< 46)

---
-- Tables
---

section

variable {O T : Type}

/- `_Eo_Id_Entry`; a link of -1 is `none`. -/
structure Entry (O : Type) where
  ptr : Option O
  nextInFifo : Option Nat
  active : Bool
  generation : Nat

/- `_Eo_Ids_Table` -/
structure Table (O : Type) where
  start : Nat
  fifoHead : Option Nat
  fifoTail : Option Nat
  partialId : Nat
  freeEntries : Nat
  entries : Nat → Entry O

/- A table of `_eo_id_mem_calloc`. -/
def Table.zero : Table O where
  start := 0
  fifoHead := some 0
  fifoTail := some 0
  partialId := 0
  freeEntries := 0
  entries _ := ⟨none, some 0, false, 0⟩

/- The table with the first entry reserved. -/
def Table.init (table : Table O) (partialId : Nat) : Table O :=
  { table with
    start := 1
    freeEntries := maxEntryId - 1
    fifoHead := none
    fifoTail := none
    partialId := partialId }

/- Another content of an entry. -/
def Table.setEntry (table : Table O) (e : Nat) (entry : Entry O) : Table O :=
  { table with
    entries := Function.update table.entries e entry }

/- `_get_available_entry`, the table and the entry -/
def getAvailableEntry (table : Table O) : Option (Table O × Nat) :=
  if table.start ≠ maxEntryId then
    some
      ({ table with
        start := table.start + 1
        freeEntries := table.freeEntries - 1 }, table.start)
  else
    match table.fifoHead with
    | none => none
    | some e =>
      match (table.entries e).nextInFifo with
      | none =>
        some
          ({ table with
            fifoHead := none
            fifoTail := none
            freeEntries := table.freeEntries - 1 }, e)
      | some next =>
        some
          ({ table with
            fifoHead := some next
            freeEntries := table.freeEntries - 1 }, e)

/- An object is put into an entry. -/
def Table.fill (table : Table O) (e : Nat) (obj : O) (generation : Nat) : Table O :=
  table.setEntry e
    { table.entries e with
      ptr := some obj
      active := true
      generation := generation }

/- The entry goes to the end of the fifo. -/
def Table.recycle (table : Table O) (e : Nat) : Table O :=
  let freed := table.setEntry e
    { table.entries e with
      active := false
      nextInFifo := none }
  match table.fifoTail with
  | none =>
    { freed with
      freeEntries := table.freeEntries + 1
      fifoHead := some e
      fifoTail := some e }
  | some t =>
    { freed.setEntry t
        { freed.entries t with nextInFifo := some e } with
      freeEntries := table.freeEntries + 1
      fifoTail := some e }

/-
  `_Eo_Id_Table_Data`, without the cache of `efl_isa`; a cached
  id of 0 is nothing.
-/
structure TableData (O T : Type) where
  domain : Nat
  shared : Bool
  cacheId : Nat
  cacheObject : Option O
  idsTables : Nat → Option (Nat → Option T)
  currentTable : Option T
  emptyTable : Option T
  generation : Nat
  heap : Heap T (Table O)

/- `_eo_table_data_table_new`; the generation is random. -/
def TableData.new (domain : Nat) (shared : Bool) (generation : Nat)
    (node : T → Table O) : TableData O T where
  domain := domain
  shared := shared
  cacheId := 0
  cacheObject := none
  idsTables _ := none
  currentTable := none
  emptyTable := none
  generation := generation % maxGenerations
  heap := ⟨∅, node⟩

/-
  What the allocations of mid tables and of a table return, if
  there are any.
-/
structure Memory (T : Type) where
  mid : Bool
  table : Option T

end

---
-- Allocation
---

open Function
variable {O T : Type} [DecidableEq T]

/- `TABLE_FROM_IDS` is set. -/
def TableData.setTable (s : TableData O T) (mid tab : Nat) (t : Option T) : TableData O T :=
  { s with
    idsTables := update s.idsTables mid
      ((s.idsTables mid).map fun row =>
        update row tab t) }

/- A table for a free place: the empty one, or a new one. -/
def obtainTable (s : TableData O T) (memory : Memory T) : Option (TableData O T × T) :=
  match s.emptyTable with
  | some t => some ({ s with emptyTable := none }, t)
  | none => do
    let t ← memory.table
    some ({ s with heap := s.heap.alloc t Table.zero }, t)

/- One round of the inner loop of `_search_tables`. -/
def tryTable (s : TableData O T) (memory : Memory T) (mid tab : Nat) :
    Option (TableData O T × Option (T × Nat)) := do
  let row ← s.idsTables mid
  match row tab with
  | none => do
    let (s, t) ← obtainTable s memory
    let h ← s.heap.modify t fun table =>
      table.init (composePartial mid tab)
    let s := { s with heap := h }.setTable mid tab (some t)
    some ({ s with currentTable := some t }, some (t, 0))
  | some t => do
    let table ← s.heap.read t
    match getAvailableEntry table with
    | none => some (s, none)
    | some (table, e) => do
      let h ← s.heap.modify t fun _ => table
      some
        ({ s with
          heap := h
          currentTable := some t }, some (t, e))

/- The tables of a mid table, `n` of them from `tab` on. -/
def searchRow (memory : Memory T) (mid : Nat) : Nat → Nat → TableData O T →
      Option (TableData O T × Option (T × Nat))
  | 0, _, s => some (s, none)
  | n + 1, tab, s => do
    let (s, found) ← tryTable s memory mid tab
    match found with
    | some found => some (s, some found)
    | none => searchRow memory mid n (tab + 1) s

/- A mid table that is not there is allocated. -/
def midTable (s : TableData O T) (memory : Memory T) (mid : Nat) : TableData O T :=
  match s.idsTables mid with
  | some _ => s
  | none =>
    if memory.mid then
      { s with
        idsTables := update s.idsTables mid
          (some fun _ => none) }
    else
      s

/- `_search_tables`, with `n` mid tables from `mid` on -/
def searchTables (memory : Memory T) : Nat → Nat → TableData O T →
      Option (TableData O T × Option (T × Nat))
  | 0, _, s => some ({ s with currentTable := none }, none)
  | n + 1, mid, s => do
    let (s, found) ← searchRow memory mid maxTableId 0
      (midTable s memory mid)
    match found with
    | some found => some (s, some found)
    | none => searchTables memory n (mid + 1) s

/- The entry of the current table, if it has one. -/
def currentEntry (s : TableData O T) : Option (TableData O T × Option (T × Nat)) :=
  match s.currentTable with
  | none => some (s, none)
  | some t => do
    let table ← s.heap.read t
    match getAvailableEntry table with
    | none => some (s, none)
    | some (table, e) => do
      let h ← s.heap.modify t fun _ => table
      some ({ s with heap := h }, some (t, e))

/- The next generation, never 0. -/
def nextGeneration (s : TableData O T) : Nat :=
  let g := s.generation + 1
  if s.shared then
    if g = maxGenerations then 1 else g
  else
    if maxGenerations ≤ g then 1 else g

/- The id of an entry that gets an object. -/
def fillEntry (s : TableData O T) (t : T) (e : Nat) (obj : O) : Option (TableData O T × Nat) := do
  let g := nextGeneration s
  let h ← s.heap.modify t fun table => table.fill e obj g
  some
    ({ s with
      heap := h
      generation := g },
      composeFinal (h.node t).partialId e s.domain g)

/- `_eo_id_allocate` -/
def idAllocate (s : TableData O T) (memory : Memory T)
    (obj : O) : Option (TableData O T × Nat) := do
  let (s, entry) ← currentEntry s
  match entry with
  | some (t, e) => fillEntry s t e obj
  | none => do
    let (s, entry) ← searchTables memory maxMidTableId 0 s
    match entry with
    | some (t, e) => fillEntry s t e obj
    | none => some (s, 0)

---
-- Release and Lookup
---

/-
  The table and the entry of an id; `none` is an access behind
  the end of a table.
-/
def entryAt (s : TableData O T) (id : Nat) : Option (Option (T × Entry O)) :=
  match s.idsTables (midOf id) with
  | none => some none
  | some row =>
    if maxTableId ≤ tabOf id then
      none
    else
      match row (tabOf id) with
      | none => some none
      | some t =>
        if maxEntryId ≤ entryOf id then
          none
        else do
          let table ← s.heap.read t
          let entry := table.entries (entryOf id)
          if entry.active ∧
              entry.generation = generationOf id then
            some (some (t, entry))
          else
            some none

/- A table that is empty is kept as the spare one, or freed. -/
def dropEmpty (s : TableData O T) (id : Nat) (t : T) : Option (TableData O T) := do
  let s := s.setTable (midOf id) (tabOf id) none
  let s ← match s.emptyTable with
    | none => some { s with emptyTable := some t }
    | some _ => do
      let h ← s.heap.free t
      some { s with heap := h }
  some
    { s with
      currentTable :=
        if s.currentTable = some t then none
        else s.currentTable }

/- `_eo_id_release` of an id of the domain -/
def idRelease (s : TableData O T) (id : Nat) : Option (TableData O T) := do
  let found ← entryAt s id
  match found with
  | none => some s
  | some (t, _) => do
    let h ← s.heap.modify t fun table =>
      table.recycle (entryOf id)
    let s := { s with heap := h }
    let s ←
      if (h.node t).freeEntries = maxEntryId then
        dropEmpty s id t
      else
        some s
    if s.cacheId = id then
      some { s with cacheId := 0, cacheObject := none }
    else
      some s

/-
  `_eo_obj_pointer_get` of an id of the domain; the answer NULL
  is `none`.
-/
def objPointerGet (s : TableData O T) (id : Nat) : Option (TableData O T × Option O) :=
  if id = s.cacheId then
    some (s, s.cacheObject)
  else if id = 0 then
    some (s, none)
  else if tagOf id = 0 then
    some (s, none)
  else do
    let found ← entryAt s id
    match found with
    | none => some (s, none)
    | some (_, entry) =>
      some
        ({ s with
          cacheId := id
          cacheObject := entry.ptr }, entry.ptr)

end Efl.Eo.Ids
