import Mathlib.Data.Nat.Bitwise
import Mathlib.Logic.Function.Basic

/-
  Safe pointers: ids that stand for registered targets.

  An id has the numbers of a mid table, of a table and of an
  entry, and the generation of the entry, in 47 bits.  All
  allocations succeed; a table is the place where it is in
  the mid tables.  `none` is an access outside of an array.

  Main declarations:
    * `Entry`, `Table`, `Memory`
    * `compose`, and what it takes apart
-/

---
-- Ids
---

namespace Efl.Eina.Safepointer

open Function

/- `EINA_MAX_MID_TABLE_ID` -/
def maxMidTableId : Nat :=
  2048

/- `EINA_MAX_TABLE_ID`, two less than the mask reaches -/
def maxTableId : Nat :=
  2046

/- `EINA_MAX_ENTRY_ID`, two less than the mask reaches -/
def maxEntryId : Nat :=
  4094

/- `EINA_MAX_GENERATIONS` -/
def maxGenerations : Nat :=
  2048

/- `SP_COMPOSE_PARTIAL_ID` -/
def composePartial (mid tab : Nat) : Nat :=
  ((mid &&& 2047) <<< 36) ||| ((tab &&& 2047) <<< 25)

/- `SP_COMPOSE_FINAL_ID` -/
def composeFinal (partialId entry generation : Nat) : Nat :=
  partialId ||| ((entry &&& 4095) <<< 13) |||
    ((generation &&& 2047) <<< 2)

/- `EINA_SP_DECOMPOSE_ID` -/
def midOf (id : Nat) : Nat :=
  (id >>> 36) &&& 2047

def tabOf (id : Nat) : Nat :=
  (id >>> 25) &&& 2047

def entryOf (id : Nat) : Nat :=
  (id >>> 13) &&& 4095

def generationOf (id : Nat) : Nat :=
  (id >>> 2) &&& 2047

---
-- Tables
---

variable {T : Type}

/-
  The first word of an entry: the pointer, or the link of an
  `Eina_Trash`.
-/
inductive Slot (T : Type) where
  | target (t : T)
  | trash (next : Option Nat)

/- `Eina_Memory_Entry` -/
structure Entry (T : Type) where
  ptr : Slot T
  active : Bool
  generation : Nat

/- `Eina_Memory_Table` -/
structure Table (T : Type) where
  trash : Option Nat
  partialId : Nat
  start : Nat
  entries : Nat → Entry T

/- `_eina_sp_ids_tables` and `empty_table` -/
structure Memory (T : Type) where
  idsTables : Nat → Option (Nat → Option (Table T))
  emptyTable : Option (Table T)

/- A table of `_eina_safepointer_calloc` -/
def Table.zero : Table T where
  trash := none
  partialId := 0
  start := 0
  entries _ := ⟨.trash none, false, 0⟩

/- Another content of an entry -/
def Table.setEntry (table : Table T) (e : Nat) (entry : Entry T) : Table T :=
  { table with
    entries := update table.entries e entry }

/- Before the first registration -/
def Memory.new : Memory T where
  idsTables _ := none
  emptyTable := none

/- What a mid table has at an index -/
def Memory.tableAt (s : Memory T) (mid tab : Nat) : Option (Table T) :=
  (s.idsTables mid).bind fun row => row tab

/- `_eina_sp_ids_tables[mid][tab] = table` -/
def Memory.setTable (s : Memory T) (mid tab : Nat) (table : Option (Table T)) : Memory T :=
  { s with
    idsTables := update s.idsTables mid
      ((s.idsTables mid).map fun row =>
        update row tab table) }

---
-- Registration
---

/- `_eina_safepointer_table_new` -/
def tableNew (s : Memory T) (mid tab : Nat) : Memory T :=
  let table := s.emptyTable.getD .zero
  let s := { s with emptyTable := none }
  s.setTable mid tab
    (some { table with partialId := composePartial mid tab })

/- The table has an entry left. -/
def Table.hasRoom (table : Table T) : Bool :=
  table.trash.isSome || table.start < maxEntryId

/- The inner loop, over `n` tables from `tab` on. -/
def rowFind (mid : Nat) : Nat → Nat → Memory T → Memory T × Option (Nat × Nat)
  | 0, _, s => (s, none)
  | n + 1, tab, s =>
    let s := match s.tableAt mid tab with
      | none => tableNew s mid tab
      | some _ => s
    match s.tableAt mid tab with
    | none => (s, none)
    | some table =>
      if table.hasRoom then
        (s, some (mid, tab))
      else
        rowFind mid n (tab + 1) s

/- A mid table that is not there is allocated. -/
def midTable (s : Memory T) (mid : Nat) : Memory T :=
  match s.idsTables mid with
  | some _ => s
  | none =>
    { s with
      idsTables := update s.idsTables mid
        (some fun _ => none) }

/- The outer loop, over `n` mid tables from `mid` on. -/
def midFind : Nat → Nat → Memory T → Memory T × Option (Nat × Nat)
  | 0, _, s => (s, none)
  | n + 1, mid, s =>
    match rowFind mid maxTableId 0 (midTable s mid) with
    | (s, some found) => (s, some found)
    | (s, none) => midFind n (mid + 1) s

/- `_eina_safepointer_table_find` -/
def tableFind (s : Memory T) : Memory T × Option (Nat × Nat) :=
  midFind maxMidTableId 0 s

/-
  `_eina_safepointer_entry_find`.  A link that is read from a
  pointer to a target is `none`.
-/
def entryFind (table : Table T) : Option (Table T × Option Nat) :=
  match table.trash with
  | some e =>
    match (table.entries e).ptr with
    | .target _ => none
    | .trash next => some ({ table with trash := next }, some e)
  | none =>
    if table.start < maxEntryId then
      some ({ table with start := table.start + 1 },
        some table.start)
    else
      some (table, none)

/- The next generation of an entry -/
def advance (generation : Nat) : Nat :=
  if generation + 1 = maxGenerations then 1 else generation + 1

/- `eina_safepointer_register`, where an id of 0 is NULL -/
def register (s : Memory T) (target : Option T) : Option (Memory T × Nat) :=
  match target with
  | none => some (s, 0)
  | some target =>
    match tableFind s with
    | (s, none) => some (s, 0)
    | (s, some (mid, tab)) => do
      let table ← s.tableAt mid tab
      let (table, entry) ← entryFind table
      match entry with
      | none => some (s.setTable mid tab (some table), 0)
      | some e =>
        let generation :=
          advance (table.entries e).generation
        let table := table.setEntry e
          ⟨.target target, true, generation⟩
        some (s.setTable mid tab (some table),
          composeFinal table.partialId e generation)

---
-- Lookup
---

/-
  `_eina_safepointer_entry_get`: the table and the entry.  A
  mid table has `maxTableId` elements.
-/
def entryGet (s : Memory T) (id : Nat) : Option (Option (Table T × Entry T)) :=
  match s.idsTables (midOf id) with
  | none => some none
  | some row =>
    if maxTableId ≤ tabOf id then
      none
    else
      match row (tabOf id) with
      | none => some none
      | some table =>
        if entryOf id < maxEntryId then
          let entry := table.entries (entryOf id)
          if entry.active ∧
              entry.generation = generationOf id then
            some (some (table, entry))
          else
            some none
        else
          some none

/- `eina_safepointer_get` -/
def get (s : Memory T) (safe : Nat) : Option (Option (Slot T)) :=
  if safe = 0 then
    some none
  else do
    match ← entryGet s safe with
    | none => some none
    | some (_, entry) => some (some entry.ptr)

/- An entry goes to the trash. -/
def Table.recycle (table : Table T) (e : Nat) : Table T :=
  let table' := table.setEntry e
    { table.entries e with
      ptr := .trash table.trash
      active := false }
  { table' with trash := some e }

/- No entry up to `e` is active. -/
def Table.idle (table : Table T) (e : Nat) : Bool :=
  (List.range (e + 1)).all fun i => !(table.entries i).active

/- A table without active entries is taken out. -/
def drop (s : Memory T) (table : Table T) : Memory T :=
  let s := s.setTable (midOf table.partialId)
    (tabOf table.partialId) none
  { s with
    emptyTable := match s.emptyTable with
      | none => some table
      | some spare => some spare }

/- `eina_safepointer_unregister` -/
def unregister (s : Memory T) (safe : Nat) : Option (Memory T) :=
  if safe = 0 then
    some s
  else do
    match ← entryGet s safe with
    | none => some s
    | some (table, _) =>
      let e := entryOf safe
      let table := table.recycle e
      let s := s.setTable (midOf safe) (tabOf safe) (some table)
      if e = maxEntryId - 1 ∧ table.idle e then
        some (drop s table)
      else
        some s

end Efl.Eina.Safepointer
