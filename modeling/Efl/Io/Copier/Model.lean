import Efl.Eina.Strbuf.Model

/-
  `Efl_Io_Copier` between a source and a destination.

  What the source and the destination answer while a job or a
  flush runs is given with it.  The source delivers what fits
  into the slice that it is given, the destination accepts
  what the slice has.  The copier is not closed.

  What was read and accepted, the slices of the data events,
  and when the copier was done is noted in the state.

  Main declarations:
    * `Data`, `Answers`
    * `expand`, `read`, `write`
-/

---
-- The State
---

namespace Efl.Io.Copier

open Bytes

/-
  `Efl_Io_Copier_Data`; a copier that was done has noted what
  the end of stream and the length of the buffer were.
-/
structure Data where
  buf : Strbuf.Buffer
  lineDelimiter : List Byte
  bufferLimit : Nat
  readChunkSize : Nat
  progressRead : Nat
  progressWritten : Nat
  done : Bool
  forceDispatch : Bool
  job : Bool
  input : List Byte
  accepted : List Byte
  dataEvents : List (List Byte)
  doneEvents : List (Bool × Nat)

/-
  The answers of the source and the destination; `none` is
  `EAGAIN`.  `eos` is asked for three times at most.
-/
structure Answers where
  canRead : Bool
  read : Option (List Byte)
  canWrite : Bool
  write : Option Nat
  eosFirst : Bool
  eosWrite : Bool
  eosLast : Bool

/- The bytes in the buffer -/
def Data.pending (pd : Data) : List Byte :=
  pd.buf.bytes.take pd.buf.len

/- `_efl_io_copier_read_chunk_size_set` -/
def chunkSize (size : Nat) : Nat :=
  if size = 0 then 4096 else size

/- A copier that was set up -/
def Data.new (limit size : Nat) (delimiter : List Byte) : Data where
  buf := (Strbuf.init (some fun _ => 0)
    ⟨[], false, [], .null, 0, 0, 0, false⟩).1
  lineDelimiter := delimiter
  bufferLimit := limit
  readChunkSize := chunkSize size
  progressRead := 0
  progressWritten := 0
  done := false
  forceDispatch := false
  job := false
  input := []
  accepted := []
  dataEvents := []
  doneEvents := []

/- `_efl_io_copier_done_set` -/
def doneSet (pd : Data) (eos : Bool) (value : Bool) : Data :=
  if pd.done = value then pd
  else if value then
    { pd with
      done := true
      doneEvents := pd.doneEvents ++ [(eos, pd.buf.len)] }
  else
    { pd with done := false }

/- `_efl_io_copier_job_schedule` -/
def jobSchedule (pd : Data) : Data :=
  { pd with job := true }

---
-- Reading
---

/-
  `eina_binbuf_expand`: the buffer, and the length of the slice
  behind its content
-/
def expand (memory : Strbuf.Memory) (buf : Strbuf.Buffer) (size : Nat) :
    Option (Strbuf.Buffer × Nat) :=
  let room := (buf.len + size) % Strbuf.sizeMax
  if room < buf.size then
    some (buf, buf.size - buf.len - 1)
  else do
    let (buf, ok) ← Strbuf.grow memory buf room
    some (buf, if ok then buf.size - buf.len - 1 else 0)

/- `eina_binbuf_use` -/
def use (buf : Strbuf.Buffer) (extra : Nat) : Strbuf.Buffer × Bool :=
  if buf.size < buf.len + extra + 1 then (buf, false)
  else ({ buf with len := buf.len + extra }, true)

/- How much is to be read; none at the limit -/
def expandSize (pd : Data) : Option Nat :=
  if 0 < pd.bufferLimit then
    if pd.bufferLimit ≤ pd.buf.len then none
    else some (min pd.readChunkSize (pd.bufferLimit - pd.buf.len))
  else
    some pd.readChunkSize

/- What the source delivers is in the buffer. -/
def received (pd : Data) (chunk : List Byte) : Data :=
  match use pd.buf chunk.length with
  | (_, false) => pd
  | (buf, true) =>
    let pd := { pd with
      buf := buf
      progressRead :=
        (pd.progressRead + chunk.length) % 18446744073709551616
      input := pd.input ++ chunk }
    jobSchedule (doneSet pd false false)

/- `_efl_io_copier_read` -/
def read (memory : Strbuf.Memory) (answers : Answers) (pd : Data) : Option Data :=
  match expandSize pd with
  | none => some pd
  | some size => do
    let (buf, len) ← expand memory pd.buf size
    let pd := { pd with buf := buf }
    if len = 0 then some pd
    else
      match answers.read with
      | none => some pd
      | some bytes => do
        let chunk := bytes.take len
        let buf ← buf.write buf.len chunk
        some (received { pd with buf := buf } chunk)

---
-- Writing
---

/-
  `eina_slice_find`: the first place of a needle that is not
  empty; `memchr` goes to where its first byte is.
-/
def sliceFind (needle : List Byte) : List Byte → Option Nat
  | [] => none
  | s :: slice =>
    if needle.isPrefixOf (s :: slice) then some 0
    else (sliceFind needle slice).map (· + 1)

/- The length of what is written, if anything is -/
def writeLength (eos : Bool) (pd : Data) : Option Nat :=
  let len := pd.buf.len
  if len = 0 then none
  else if 0 < pd.lineDelimiter.length ∧ !pd.forceDispatch ∧
      !eos then
    match sliceFind pd.lineDelimiter pd.pending with
    | some p => some (p + pd.lineDelimiter.length)
    | none =>
      if pd.bufferLimit = 0 ∨ len < pd.bufferLimit then none
      else some len
  else
    some len

/-
  `_efl_io_copier_dispatch_data_events` of the first bytes of
  the buffer: the event, and how many of them are still there
-/
def dispatchDataEvents (pd : Data) (len : Nat) : Option (Data × Nat) := do
  let slice ← Block.read pd.buf.bytes 0 len
  some
    ({ pd with dataEvents := pd.dataEvents ++ [slice] },
      min pd.buf.len len)

/- `_efl_io_copier_write` -/
def write (alloc : Strbuf.Alloc) (answers : Answers) (pd : Data) : Option Data :=
  match writeLength answers.eosWrite pd with
  | none => some pd
  | some len =>
    match answers.write with
    | none => some pd
    | some n => do
      let slice ← Block.read pd.buf.bytes 0 (min n len)
      if slice.length = 0 then some pd
      else do
        let pd := { pd with
          progressWritten :=
            (pd.progressWritten + slice.length) %
              18446744073709551616
          accepted := pd.accepted ++ slice }
        let pd := doneSet pd false false
        let (pd, len) ← dispatchDataEvents pd slice.length
        let (buf, ok) ← Strbuf.remove alloc pd.buf 0 len
        let pd := { pd with buf := buf }
        some (if ok then jobSchedule pd else pd)

/- The end of a job or a flush -/
def finish (answers : Answers) (pd : Data) : Data :=
  if answers.eosLast ∧ !pd.done ∧ pd.buf.len = 0 then
    doneSet pd answers.eosLast true
  else
    pd

/- `_efl_io_copier_job` -/
def job (memory : Strbuf.Memory) (alloc : Strbuf.Alloc)
    (answers : Answers) (pd : Data) : Option Data := do
  let pd := { pd with job := false }
  let pd ← bif answers.canRead then read memory answers pd
    else some pd
  let pd ← bif answers.canWrite then write alloc answers pd
    else some pd
  some (finish answers pd)

/- `_efl_io_copier_flush` -/
def flush (memory : Strbuf.Memory) (alloc : Strbuf.Alloc)
    (answers : Answers) (mayBlock ignoreLineDelimiter : Bool) (pd : Data) : Option Data := do
  let pd ←
    bif !answers.eosFirst && (mayBlock || answers.canRead) then
      read memory answers pd
    else some pd
  let pd ← bif mayBlock || answers.canWrite then do
      let pd ← write alloc answers
        { pd with forceDispatch := ignoreLineDelimiter }
      some { pd with forceDispatch := false }
    else some pd
  some (finish answers pd)

end Efl.Io.Copier
