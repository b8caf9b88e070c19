import Efl.Io.Rounding
import Efl.Lib.Block
import Efl.Lib.Bytes

/-
  `Efl_Io_Queue`.

  The bytes that were written and not read yet lie in one
  block, between two positions.  A copy outside of the block
  is `none`.  No handler of an event changes the queue.

  Main declarations:
    * `Data`, `Alloc`
    * `realloc`, `adjust`, `adjustAndRealloc`
-/

---
-- Queues
---

namespace Efl.Io.Queue

open Bytes

/- `_Efl_Io_Queue_Data`, with the block that `bytes` points to -/
structure Data where
  bytes : List Byte
  preallocated : Nat
  limit : Nat
  positionRead : Nat
  positionWrite : Nat
  pendingEos : Bool
  eos : Bool
  closed : Bool
  canRead : Bool
  canWrite : Bool
  deriving DecidableEq

/-
  The outcomes of the calls of `realloc`: what is in the new
  part of the block, if there is a block.
-/
abbrev Alloc :=
  Nat → Option (Nat → Byte)

/- `pd->allocated` -/
def Data.allocated (pd : Data) : Nat :=
  pd.bytes.length

/- `_efl_io_queue_usage_get` -/
def Data.usage (pd : Data) : Nat :=
  CSize.sub pd.positionWrite pd.positionRead

/- A queue after `_efl_io_queue_efl_object_finalize` -/
def Data.new : Data where
  bytes := []
  preallocated := 0
  limit := 0
  positionRead := 0
  positionWrite := 0
  pendingEos := false
  eos := false
  closed := false
  canRead := false
  canWrite := true

/-
  `_efl_io_queue_realloc`; `realloc` gives no block that is
  larger than half of the memory.
-/
def realloc (memory : Option (Nat → Byte)) (pd : Data) (size : Nat) : Data :=
  let size := if 0 < pd.limit ∧ pd.limit < size then pd.limit else size
  if pd.allocated = size then
    pd
  else if size = 0 then
    { pd with bytes := [] }
  else
    match memory with
    | none => pd
    | some junk =>
      if size ≤ CSize.blockMax then
        { pd with bytes := Block.realloc junk pd.bytes size }
      else
        pd

/- `_efl_io_queue_slack_get` -/
def slackGet (pd : Data) : Nat :=
  let used := pd.usage
  if 4096 ≤ used then 4096
  else if 1024 ≤ used then 1024
  else if 128 ≤ used then 128
  else 32

/- `_efl_io_queue_realloc_rounded` -/
def reallocRounded (memory : Option (Nat → Byte)) (pd : Data) (size : Nat) : Data :=
  realloc memory pd (rounded size)

/- `_efl_io_queue_adjust` -/
def adjust (pd : Data) : Option Data := do
  let used := pd.usage
  let bytes ← Block.move pd.bytes 0 pd.positionRead used
  some
    { pd with
      bytes := bytes
      positionWrite := used
      positionRead := 0 }

/-
  The first half of
  `_efl_io_queue_adjust_and_realloc_if_needed`
-/
def adjustIfNeeded (pd : Data) (slack : Nat) : Option Data :=
  if 0 < pd.limit then
    if pd.limit ≤ CSize.add pd.positionWrite slack then
      adjust pd
    else
      some pd
  else if slack < pd.positionRead then
    adjust pd
  else
    some pd

/- `_efl_io_queue_adjust_and_realloc_if_needed` -/
def adjustAndRealloc (memory : Option (Nat → Byte)) (pd : Data) : Option Data := do
  let slack := slackGet pd
  let pd ← adjustIfNeeded pd slack
  let spare := CSize.sub pd.allocated pd.positionWrite
  if slack < spare then
    let newSize := CSize.add pd.positionWrite slack
    some (reallocRounded memory pd
      (if newSize < pd.preallocated then pd.preallocated else newSize))
  else
    some pd

---
-- Flags
---

/- `_efl_io_queue_efl_io_reader_can_read_set` -/
def canReadSet (pd : Data) (canRead : Bool) : Data :=
  if pd.closed then pd else { pd with canRead := canRead }

/- `_efl_io_queue_efl_io_writer_can_write_set` -/
def canWriteSet (pd : Data) (canWrite : Bool) : Data :=
  if pd.closed then pd else { pd with canWrite := canWrite }

/- `_efl_io_queue_efl_io_reader_eos_set` -/
def eosSet (pd : Data) (isEos : Bool) : Data :=
  if pd.closed then pd
  else if pd.eos = isEos then pd
  else if isEos then { pd with eos := true, pendingEos := false }
  else { pd with eos := false }

/- `_efl_io_queue_update_cans` -/
def updateCans (pd : Data) : Data :=
  let used := pd.usage
  let pd := canReadSet pd (decide (0 < used))
  if pd.closed then pd
  else if pd.pendingEos then canWriteSet pd false
  else canWriteSet pd (decide (pd.limit = 0 ∨ used < pd.limit))

/- What a read and a discard do when bytes were taken -/
def taken (pd : Data) : Data :=
  let pd := canReadSet pd
    (decide (pd.positionRead < pd.positionWrite))
  if pd.closed then pd
  else if pd.pendingEos ∧ pd.usage = 0 then eosSet pd true
  else pd

---
-- Calls
---

open Bytes

/- `EINVAL`, `EBADF`, `ENOSPC`, `EAGAIN` -/
inductive Error where
  | inval
  | badf
  | nospc
  | again
  deriving DecidableEq

/- `_efl_io_queue_preallocate` -/
def preallocate (alloc : Alloc) (pd : Data) (size : Nat) : Data :=
  if pd.closed then
    pd
  else
    let pd :=
      if pd.allocated < size then
        reallocRounded (alloc 0) pd size
      else
        pd
    { pd with preallocated := size }

/- The positions are not above the limit. -/
def cut (pd : Data) (limit : Nat) : Data :=
  if limit < pd.positionWrite then
    { pd with
      positionWrite := limit
      positionRead :=
        if limit < pd.positionRead then limit
        else pd.positionRead }
  else
    pd

/- The block is not larger than the limit. -/
def shrink (memory : Option (Nat → Byte)) (pd : Data) (limit : Nat) : Data :=
  if limit < pd.allocated then realloc memory pd limit else pd

/- `_efl_io_queue_limit_set` -/
def limitSet (alloc : Alloc) (pd : Data) (limit : Nat) : Option Data :=
  if pd.closed then
    some pd
  else if pd.limit = limit then
    some pd
  else if limit = 0 then
    some (updateCans { pd with limit := limit })
  else do
    let pd ← adjust { pd with limit := limit }
    let pd := cut (shrink (alloc 0) pd limit) limit
    let pd ← adjustAndRealloc (alloc 1) pd
    some (if pd.closed then pd else updateCans pd)

/- `_efl_io_queue_slice_get` -/
def sliceGet (pd : Data) : Option (List Byte) :=
  if pd.closed then some []
  else Block.read pd.bytes pd.positionRead pd.usage

/- `_efl_io_queue_clear` -/
def clear (pd : Data) : Data :=
  let pd := { pd with positionRead := 0, positionWrite := 0 }
  let pd := canReadSet pd false
  if pd.closed then pd
  else if pd.pendingEos then eosSet pd true
  else pd

/- `_efl_io_queue_eos_mark` -/
def eosMark (pd : Data) : Data :=
  if pd.eos then pd
  else if 0 < pd.usage then { pd with pendingEos := true }
  else eosSet pd true

/-
  `_efl_io_queue_efl_io_reader_read`, for a slice of some
  length
-/
def read (pd : Data) (len : Nat) : Option (Data × List Byte × Option Error) :=
  if pd.closed then
    some (canReadSet pd false, [], some .inval)
  else
    let available := pd.usage
    if available < len ∧ available = 0 then
      some (pd, [], some .again)
    else do
      let len := if available < len then available else len
      let bytes ← Block.read pd.bytes pd.positionRead len
      let pd :=
        { pd with positionRead := CSize.add pd.positionRead len }
      some (taken pd, bytes, none)

/- `_efl_io_queue_discard` -/
def discard (pd : Data) (amount : Nat) : Data :=
  if pd.closed then
    pd
  else
    let available := pd.usage
    if available < amount ∧ available = 0 then
      pd
    else
      let amount := if available < amount then available else amount
      taken
        { pd with positionRead := CSize.add pd.positionRead amount }

/- The last branch of `write`, for a larger block -/
def growRoom (memory : Option (Nat → Byte)) (pd : Data) (len : Nat) : Data × Option Nat :=
  let size := CSize.add pd.positionWrite len
  let pd := reallocRounded memory pd size
  let todo :=
    if size ≤ pd.allocated then len
    else CSize.sub pd.allocated pd.positionWrite
  (pd, if todo = 0 then none else some todo)

/-
  What `write` does before the copy, with how much is copied
-/
def makeRoom (memory : Option (Nat → Byte)) (pd : Data)
    (len : Nat) : Option (Data × Option Nat) :=
  let availableWrite := CSize.sub pd.allocated pd.positionWrite
  let availableTotal := CSize.add availableWrite pd.positionRead
  if len ≤ availableWrite then
    some (pd, some len)
  else if len ≤ availableTotal then do
    let pd ← adjust pd
    some (pd, some len)
  else if 0 < pd.limit ∧ pd.allocated = pd.limit then
    some (pd, none)
  else do
    let pd ← adjust pd
    some (growRoom memory pd len)

/-
  `_efl_io_queue_efl_io_writer_write` of a slice that is not
  NULL, with the number of bytes that were taken
-/
def write (alloc : Alloc) (pd : Data) (slice : List Byte) : Option (Data × Nat × Option Error) :=
  if pd.closed then
    some (canWriteSet pd false, 0, some .inval)
  else if pd.pendingEos then
    some (canWriteSet pd false, 0, some .badf)
  else do
    let (pd, todo) ← makeRoom (alloc 0) pd slice.length
    match todo with
    | none => some (canWriteSet pd false, 0, some .nospc)
    | some todo => do
      let bytes ←
        Block.write pd.bytes pd.positionWrite (slice.take todo)
      let pd :=
        { pd with
          bytes := bytes
          positionWrite := CSize.add pd.positionWrite todo }
      let pd ← adjustAndRealloc (alloc 1) pd
      some (if pd.closed then pd else updateCans pd, todo, none)

end Efl.Io.Queue
