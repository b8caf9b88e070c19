import Efl.Lib.CInt
import Mathlib.Logic.Function.Basic

/-
  The mappings of an `Eina_File` that is not virtual.

  What `mmap` answers is given with a call: the address of a
  new mapping, or none; with huge pages it is the answer that
  counts.  There is memory for the records.  `none` is the use
  of a record that was released, or an unmapping of what is
  not mapped.

  Main declarations:
    * `File`, `Map`
    * `mapAll`, `mapNew`, `mapFree`
-/

---
-- The State
---

namespace Efl.Eina.FileMap

/- `Eina_File_Map` -/
structure Map where
  map : Nat
  offset : Nat
  length : Nat
  refcount : Int

/-
  `Eina_File`, with the records that were not released and
  what is mapped, as addresses and lengths.  The two hashes
  have the numbers of records.
-/
structure File where
  map : List ((Nat × Nat) × Nat)
  rmap : List (Nat × Nat)
  globalMap : Option Nat
  length : Nat
  refcount : Int
  globalRefcount : Int
  deadMap : List Nat
  record : Nat → Option Map
  records : Nat
  mapped : List (Nat × Nat)

/- A file that was opened -/
def File.new (length : Nat) (refcount : Int) : File where
  map := []
  rmap := []
  globalMap := none
  length := length
  refcount := refcount
  globalRefcount := 0
  deadMap := []
  record := fun _ => none
  records := 0
  mapped := []

/- `mmap`, when it has an answer -/
def mmap (f : File) (addr length : Nat) : File :=
  { f with mapped := (addr, length) :: f.mapped }

/- `munmap` -/
def munmap (f : File) (addr length : Nat) : Option File :=
  if (addr, length) ∈ f.mapped then
    some { f with mapped := f.mapped.erase (addr, length) }
  else
    none

def setRecord (f : File) (r : Nat) (m : Map) : File :=
  { f with record := Function.update f.record r (some m) }

/- `malloc` of a record -/
def newRecord (f : File) (m : Map) : File × Nat :=
  ({ setRecord f f.records m with records := f.records + 1 },
    f.records)

/- `_eina_file_map_close` -/
def mapClose (f : File) (r : Nat) : Option File := do
  let m ← f.record r
  let f ← munmap f m.map m.length
  some { f with record := Function.update f.record r none }

/- `eina_hash_del` of the forward hash, which owns its records -/
def mapDel (f : File) (key : Nat × Nat) (r : Nat) : Option File :=
  if (key, r) ∈ f.map then
    mapClose { f with map := f.map.erase (key, r) } r
  else
    some f

/- `eina_hash_del` of the reverse hash -/
def rmapDel (f : File) (addr r : Nat) : File :=
  { f with rmap := f.rmap.erase (addr, r) }

---
-- Mapping
---

open CInt

/- `eina_file_map_all` -/
def mapAll (f : File) (answer : Option Nat) : File × Option Nat :=
  let f :=
    match f.globalMap, answer with
    | none, some addr =>
      { mmap f addr f.length with globalMap := some addr }
    | _, _ => f
  match f.globalMap with
  | some g =>
    ({ f with globalRefcount := wrap (f.globalRefcount + 1) },
      some g)
  | none => (f, none)

/- `map->refcount++`, and the address of the region -/
def refRecord (f : File) (r : Nat) : Option (File × Option Nat) := do
  let m ← f.record r
  some
    (setRecord f r { m with refcount := wrap (m.refcount + 1) },
      some m.map)

/- `eina_file_map_new` -/
def mapNew (f : File) (answer : Option Nat) (offset length : Nat) : Option (File × Option Nat) :=
  if f.length < offset then some (f, none)
  else if f.length < (offset + length) % 18446744073709551616
  then some (f, none)
  else if offset = 0 ∧ length = f.length then
    some (mapAll f answer)
  else
    match f.map.lookup (offset, length) with
    | some r => refRecord f r
    | none =>
      match answer with
      | none => some (f, none)
      | some addr =>
        let f := mmap f addr length
        let (f, r) := newRecord f ⟨addr, offset, length, 0⟩
        refRecord
          { f with
            map := ((offset, length), r) :: f.map
            rmap := (addr, r) :: f.rmap } r

---
-- Releasing
---

/- The search of `dead_map` -/
def findDead (f : File) (addr : Nat) : List Nat → Option (Option Nat)
  | [] => some none
  | r :: rs => do
    let m ← f.record r
    if m.map = addr then some (some r)
    else findDead f addr rs

/- What is done with a record that was found -/
def unrefRecord (f : File) (addr r : Nat) (hashed : Bool) : Option File := do
  let m ← f.record r
  let m := { m with refcount := wrap (m.refcount - 1) }
  let f := setRecord f r m
  if 0 < m.refcount then some f
  else if hashed then
    mapDel (rmapDel f addr r) (m.offset, m.length) r
  else
    mapClose { f with deadMap := f.deadMap.erase r } r

/- `eina_file_common_map_free` -/
def commonMapFree (f : File) (addr : Nat) : Option File :=
  match f.rmap.lookup addr with
  | some r => unrefRecord f addr r true
  | none => do
    match ← findDead f addr f.deadMap with
    | some r => unrefRecord f addr r false
    | none => some f

/- `eina_file_map_free` -/
def mapFree (f : File) (addr : Nat) : Option File :=
  if f.globalMap = some addr then
    let f :=
      { f with globalRefcount := wrap (f.globalRefcount - 1) }
    if 0 < f.globalRefcount then some f
    else do
      let f ← munmap f addr f.length
      some { f with globalMap := none }
  else
    commonMapFree f addr

/- The records of the forward hash that end behind a length -/
def outOfLimit (f : File) (length : Nat) : List ((Nat × Nat) × Nat) → Option (List Nat)
  | [] => some []
  | (_, r) :: entries => do
    let m ← f.record r
    let rs ← outOfLimit f length entries
    some
      (if length < (m.offset + m.length) % 18446744073709551616
      then r :: rs else rs)

/- A record is taken out of both hashes. -/
def dropMap (f : File) (r : Nat) : Option File := do
  let m ← f.record r
  mapDel (rmapDel f m.map r) (m.offset, m.length) r

/- The global map is forgotten. -/
def forgetGlobal (f : File) : File :=
  match f.globalMap with
  | none => f
  | some g =>
    let (f, r) := newRecord f ⟨g, 0, f.length, f.refcount⟩
    { f with
      deadMap := f.deadMap ++ [r]
      globalMap := none
      globalRefcount := 0 }

/- `eina_file_flush` -/
def flush (f : File) (length : Nat) : Option File := do
  let f := forgetGlobal f
  let dead ← outOfLimit f length f.map
  let f ← dead.foldlM dropMap f
  some { f with deadMap := f.deadMap ++ dead }

/- `eina_file_refresh`, with the size that `fstat` has -/
def refresh (f : File) (size : Nat) : Option File := do
  let f ← bif f.length != size then flush f size else some f
  some { f with length := size }

/-
  `eina_file_clean_close`, with `eina_file_real_close` of a
  file that has a descriptor
-/
def close (f : File) : Option File := do
  let entries := f.map
  let f ← (entries.map Prod.snd).foldlM mapClose
    { f with rmap := [], map := [] }
  let f ← f.deadMap.foldlM mapClose f
  match f.globalMap with
  | none => some f
  | some g => munmap f g f.length

end Efl.Eina.FileMap
