import Efl.Io.Rounding
import Efl.Lib.Block
import Efl.Lib.Bytes

/-
  `Efl_Io_Buffer`, while it is open.

  The bytes lie in one block, which is its own or was given by
  the caller to be read only.  A copy outside of a block is
  `none`.  No handler of an event changes the buffer.

  Main declarations:
    * `Data`, `Alloc`
    * `realloc`, `preallocate`, `limitSet`
-/

---
-- Buffers
---

namespace Efl.Io.Buffer

open Bytes

/-
  `_Efl_Io_Buffer_Data`, with the block that `bytes` points
  to, and without what only the events need
-/
structure Data where
  bytes : List Byte
  used : Nat
  limit : Nat
  positionRead : Nat
  positionWrite : Nat
  readonly : Bool
  deriving DecidableEq

/-
  The outcomes of the allocations of a call: what is in the
  new part of the block, if there is a block.
-/
abbrev Alloc :=
  Nat → Option (Nat → Byte)

/- `EINVAL`, `EPERM`, `ENOSPC`, `EAGAIN` -/
inductive Error where
  | inval
  | perm
  | nospc
  | again
  deriving DecidableEq

/- `pd->allocated` -/
def Data.allocated (pd : Data) : Nat :=
  pd.bytes.length

def Data.new : Data where
  bytes := []
  used := 0
  limit := 0
  positionRead := 0
  positionWrite := 0
  readonly := false

/- `_efl_io_buffer_position_read_set` -/
def positionReadSet (pd : Data) (position : Nat) : Data × Bool :=
  if pd.used < position then (pd, false)
  else ({ pd with positionRead := position }, true)

/- `_efl_io_buffer_position_write_set` -/
def positionWriteSet (pd : Data) (position : Nat) : Data × Bool :=
  if position < pd.used ∧ pd.readonly then (pd, false)
  else if pd.used < position then (pd, false)
  else ({ pd with positionWrite := position }, true)

/- The part of `_efl_io_buffer_realloc` for a smaller size -/
def clip (pd : Data) (size : Nat) : Data :=
  if size < pd.used then
    let pd :=
      if size < pd.positionRead then (positionReadSet pd size).1
      else pd
    let pd :=
      if size < pd.positionWrite then (positionWriteSet pd size).1
      else pd
    { pd with used := size }
  else
    pd

/-
  `_efl_io_buffer_realloc`; `realloc` gives no block that is
  larger than half of the memory.
-/
def realloc (memory : Option (Nat → Byte)) (pd : Data) (size : Nat) : Data :=
  if pd.readonly then
    pd
  else
    let size :=
      if 0 < pd.limit ∧ pd.limit < size then pd.limit else size
    if pd.allocated = size then
      pd
    else
      let pd := clip pd size
      if size = 0 then
        { pd with bytes := [] }
      else
        match memory with
        | none => pd
        | some junk =>
          if size ≤ CSize.blockMax then
            { pd with bytes := Block.realloc junk pd.bytes size }
          else
            pd

/- `_efl_io_buffer_realloc_rounded` -/
def reallocRounded (memory : Option (Nat → Byte)) (pd : Data) (size : Nat) : Data :=
  realloc memory pd (rounded size)

---
-- Sizes
---

/- `_efl_io_buffer_preallocate` -/
def preallocate (alloc : Alloc) (pd : Data) (size : Nat) : Data :=
  if pd.readonly then pd
  else if pd.allocated < size then
    reallocRounded (alloc 0) pd size
  else
    pd

/- `_efl_io_buffer_limit_set` -/
def limitSet (alloc : Alloc) (pd : Data) (limit : Nat) : Data :=
  if pd.readonly then pd
  else if pd.limit = limit then pd
  else
    let pd := { pd with limit := limit }
    if 0 < limit ∧ limit < pd.allocated then
      realloc (alloc 0) pd limit
    else
      pd

/- `_efl_io_buffer_efl_io_sizer_resize` from `end` on -/
def resizeEnd (pd : Data) (size : Nat) : Data :=
  let pd :=
    if size < pd.positionRead then (positionReadSet pd size).1
    else pd
  if size < pd.positionWrite then (positionWriteSet pd size).1
  else pd

/- `_efl_io_buffer_efl_io_sizer_resize` -/
def resize (memory : Option (Nat → Byte)) (pd : Data)
    (size : Nat) : Option (Data × Option Error) :=
  if pd.used = size then
    some (pd, none)
  else if pd.readonly then
    if pd.used < size then
      some (pd, some .perm)
    else
      some (resizeEnd { pd with used := size } size, none)
  else
    let oldSize := pd.used
    let pd := reallocRounded memory { pd with used := size } size
    let (pd, size, ret) :=
      if pd.allocated < size then
        ({ pd with used := pd.allocated }, pd.allocated,
          some Error.nospc)
      else
        (pd, size, none)
    if oldSize < size then do
      let bytes ← Block.write pd.bytes oldSize
        (List.replicate (CSize.sub size oldSize) 0)
      some (resizeEnd { pd with bytes := bytes } size, ret)
    else
      some (resizeEnd pd size, ret)

/- `_efl_io_buffer_binbuf_steal`, with the bytes of the buffer -/
def binbufSteal (alloc : Alloc) (pd : Data) : Option (Data × Option (List Byte)) :=
  if pd.readonly then
    some (pd, none)
  else
    match alloc 0 with
    | none => some (pd, none)
    | some _ => do
      let bytes ← Block.read pd.bytes 0 pd.used
      let (pd, _) ← resize (alloc 1) { pd with bytes := [] } 0
      some (pd, some bytes)

/- `_efl_io_buffer_adopt_readonly` -/
def adoptReadonly (pd : Data) (slice : List Byte) : Data :=
  let pd := { pd with
    readonly := true
    bytes := slice
    used := slice.length }
  let pd :=
    if slice.length < pd.positionRead then
      (positionReadSet pd slice.length).1
    else
      pd
  (positionWriteSet pd slice.length).1

/- `_efl_io_buffer_adopt_readwrite` -/
def adoptReadwrite (pd : Data) (slice : List Byte) : Data :=
  let pd := { pd with
    readonly := false
    bytes := slice
    used := slice.length }
  let pd :=
    if slice.length < pd.positionRead then
      (positionReadSet pd slice.length).1
    else
      pd
  if slice.length < pd.positionWrite then
    (positionWriteSet pd slice.length).1
  else
    pd

---
-- Reading and Writing
---

/-
  `_efl_io_buffer_efl_io_reader_read`, for a slice of some
  length
-/
def read (pd : Data) (len : Nat) : Option (Data × List Byte × Option Error) :=
  let available := CSize.sub pd.used pd.positionRead
  if available < len ∧ available = 0 then
    some (pd, [], some .again)
  else do
    let len := if available < len then available else len
    let bytes ← Block.read pd.bytes pd.positionRead len
    let (pd, _) :=
      positionReadSet pd (CSize.add pd.positionRead len)
    some (pd, bytes, none)

/- What `write` does before the copy, with how much is copied -/
def makeRoom (memory : Option (Nat → Byte)) (pd : Data) (len : Nat) : Data × Option Nat :=
  let writePos := pd.positionWrite
  if len ≤ CSize.sub pd.allocated writePos then
    (pd, some len)
  else if 0 < pd.limit ∧ pd.allocated = pd.limit then
    (pd, none)
  else
    let size := CSize.add writePos len
    let pd := reallocRounded memory pd size
    let todo :=
      if size ≤ pd.allocated then len
      else CSize.sub pd.allocated writePos
    (pd, if todo = 0 then none else some todo)

/-
  `_efl_io_buffer_efl_io_writer_write`, with the number of
  bytes that were taken
-/
def write (alloc : Alloc) (pd : Data) (slice : List Byte) : Option (Data × Nat × Option Error) :=
  if pd.readonly then
    some (pd, 0, some .perm)
  else
    let writePos := pd.positionWrite
    let (pd, todo) := makeRoom (alloc 0) pd slice.length
    match todo with
    | none => some (pd, 0, some .nospc)
    | some todo => do
      let taken ← Block.read slice 0 todo
      let bytes ← Block.write pd.bytes writePos taken
      let position := CSize.add writePos todo
      let pd := { pd with
        bytes := bytes
        used := if pd.used < position then position else pd.used }
      some ((positionWriteSet pd position).1, todo, none)

/- `_efl_io_buffer_efl_io_positioner_position_get` -/
def positionGet (pd : Data) : Nat :=
  if pd.positionWrite ≤ pd.positionRead then pd.positionRead
  else pd.positionWrite

/- `Efl_Io_Positioner_Whence` -/
inductive Whence where
  | start
  | current
  | «end»
  deriving DecidableEq

/- A sum that is kept as an `int64_t` -/
def offsetAdd (offset : Int) (n : Nat) : Int :=
  (offset + n).bmod CSize.bound

/- The offset from the start -/
def seekOffset (pd : Data) (offset : Int) : Whence → Int
  | .start => offset
  | .current => offsetAdd offset (positionGet pd)
  | .end => offsetAdd offset pd.used

/- `_efl_io_buffer_efl_io_positioner_seek` -/
def seek (pd : Data) (offset : Int) (whence : Whence) : Data × Option Error :=
  let offset := seekOffset pd offset whence
  if offset < 0 then
    (pd, some .inval)
  else if pd.used < offset.toNat then
    (pd, some .inval)
  else
    let (pd, _) := positionReadSet pd offset.toNat
    let (pd, _) := positionWriteSet pd offset.toNat
    (pd, none)

end Efl.Io.Buffer
