import Efl.Lib.CInt
import Efl.EcoreIpc.Delta

/-
  Sending and receiving of messages in `ecore_ipc.c`.

  A message is a head of six delta-coded fields and a payload.
  Both sides remember the head before.  The receiver collects
  chunks in a buffer and takes complete messages out of it.

  `none` is a read or a write outside an array.  Whether an
  allocation succeeds is up to an oracle.

  Main declarations:
    * `EcoreIpc.Head`
    * `EcoreIpc.serverSend`
-/

---
-- Sending
---

namespace Efl.EcoreIpc

open Bytes

/- `Ecore_Ipc_Msg_Head` -/
structure Head where
  major : Word
  minor : Word
  ref : Word
  refTo : Word
  response : Word
  size : Word
  deriving DecidableEq, Repr

/- `sizeof(Ecore_Ipc_Msg_Head)`, the size of `dat`. -/
def sizeofHead : Nat :=
  24

/- The arguments of a call of `ecore_ipc_server_send`. -/
structure Call where
  major : Word
  minor : Word
  ref : Word
  refTo : Word
  response : Word
  data : Option (List Byte)
  size : Word

/- Store bytes in `dat`, behind the head and `dat`'s bytes. -/
def store (dat bs : List Byte) : Option (List Byte) :=
  if 4 + dat.length + bs.length ≤ sizeofHead then
    some (dat ++ bs)
  else
    none

/- `SVENC`: the mode of a field, and its bytes stored. -/
def svEnc (out prev : Word) (dat : List Byte) : Option (Dlt × List Byte) := do
  let (md, d) := dltInt out prev
  let dat ←
    if Dlt.set.code ≤ md.code then
      store dat (be32 d)
    else if Dlt.add16.code ≤ md.code then
      store dat (be16 (d.setWidth 16))
    else if Dlt.add8.code ≤ md.code then
      store dat [d.setWidth 8]
    else
      some dat
  some (md, dat)

/- The mode of field `i`, at its place in the head. -/
def modeBits (md : Dlt) (i : Nat) : Word :=
  md.code.setWidth 32 <<< (4 * i)

/- The encoded head of a message. -/
def encodeHead (msg prev : Head) : Option (List Byte) := do
  let (md, dat) ← svEnc msg.major prev.major []
  let head := modeBits md 0
  let (md, dat) ← svEnc msg.minor prev.minor dat
  let head := head ||| modeBits md 1
  let (md, dat) ← svEnc msg.ref prev.ref dat
  let head := head ||| modeBits md 2
  let (md, dat) ← svEnc msg.refTo prev.refTo dat
  let head := head ||| modeBits md 3
  let (md, dat) ← svEnc msg.response prev.response dat
  let head := head ||| modeBits md 4
  let (md, dat) ← svEnc msg.size prev.size dat
  let head := head ||| modeBits md 5
  some (be32 head ++ dat)

/- The payload that is written after the head. -/
def payload (c : Call) : Option (List Byte) :=
  match c.data with
  | none => some []
  | some data =>
    if 0 < c.size.toInt then
      readRange data 0 c.size.toInt
    else
      some []

/-
  `ecore_ipc_server_send`, with a writer that takes all
  bytes: the new `prev.o` and the bytes written.
-/
def serverSend (prevO : Head) (c : Call) : Option (Head × List Byte) := do
  let size := if c.size.toInt < 0 then 0 else c.size
  let c := { c with size := size }
  let msg : Head :=
    ⟨c.major, c.minor, c.ref, c.refTo, c.response, c.size⟩
  let dat ← encodeHead msg prevO
  let body ← payload c
  some (msg, dat ++ body)

---
-- Receiving
---

open CInt

/- The event of a received message. -/
structure Event where
  major : Word
  minor : Word
  ref : Word
  refTo : Word
  response : Word
  size : Word
  data : Option (List Byte)
  deriving DecidableEq, Repr

/-
  The receiving side of an `Ecore_Ipc_Server` or an
  `Ecore_Ipc_Client`: `buf_size` is the length of `buf`.
-/
structure Conn where
  buf : Option (List Byte)
  maxBufSize : Int
  prevI : Head
  deleteMe : Bool
  events : List Event

/- The places where memory is allocated. -/
inductive Site where
  | realloc
  | payload
  | event
  | scroll
  deriving DecidableEq

/-
  Whether an allocation succeeds, by its place and the value
  of `offset`.
-/
abbrev Alloc :=
  Site → Int → Bool

/- What one pass from the label `redo` on ends with. -/
inductive Outcome where
  | done (c : Conn)
  | redo (c : Conn) (offset : Int)

/- The mode of field `n`. -/
def modeOf (head : Word) (n : Nat) : Dlt :=
  Dlt.ofCode
    ((head.sshiftRight (4 * n) &&& 0xf).setWidth 4)

/- `CLSZ` for all fields: the size of the encoded head. -/
def headSize (head : Word) : Int :=
  4 + (modeOf head 0).width + (modeOf head 1).width +
    (modeOf head 2).width + (modeOf head 3).width +
    (modeOf head 4).width + (modeOf head 5).width

/-
  `CLDEC`: the value of a field, the next position and the
  variable `d`.
-/
def clDec (buf : List Byte) (offset : Int) (md : Dlt) (prev : Word) (s : Int)
    (d : Word) : Option (Word × Int × Word) := do
  let (d, s) ←
    if Dlt.set.code ≤ md.code then do
      let v ← read32 buf (offset + s)
      some (v, s + 4)
    else if Dlt.add16.code ≤ md.code then do
      let v ← read16 buf (offset + s)
      some (v.setWidth 32, s + 2)
    else if Dlt.add8.code ≤ md.code then do
      let v ← readAt buf (offset + s)
      some (v.setWidth 32, s + 1)
    else
      some (d, s)
  some (ddltInt d prev md, s, d)

/- The six fields, with the end of the encoded head. -/
def decodeHead (buf : List Byte) (offset : Int) (head : Word)
    (prev : Head) : Option (Head × Int) := do
  let (major, s, d) ←
    clDec buf offset (modeOf head 0) prev.major 4 0
  let (minor, s, d) ←
    clDec buf offset (modeOf head 1) prev.minor s d
  let (ref, s, d) ←
    clDec buf offset (modeOf head 2) prev.ref s d
  let (refTo, s, d) ←
    clDec buf offset (modeOf head 3) prev.refTo s d
  let (response, s, d) ←
    clDec buf offset (modeOf head 4) prev.response s d
  let (size, s, _) ←
    clDec buf offset (modeOf head 5) prev.size s d
  some (⟨major, minor, ref, refTo, response, size⟩, s)

/- `if (msg.size < 0) msg.size = 0` -/
def clampSize (msg : Head) : Head :=
  { msg with
    size := if msg.size.toInt < 0 then 0 else msg.size }

/-
  The rest of the buffer becomes the buffer.  No allocation
  of a negative size succeeds.
-/
def scroll (alloc : Alloc) (c : Conn) (buf : List Byte) (offset : Int) : Option Outcome :=
  let size := wrap (buf.length - offset)
  if 0 ≤ size && alloc .scroll offset then do
    let rest ← readRange buf offset size
    some (.done { c with buf := some rest })
  else
    some (.done { c with buf := none })

/- Queue the event of a message. -/
def emit (alloc : Alloc) (c : Conn) (offset : Int) (msg : Head)
    (data : Option (List Byte)) : Conn :=
  if !c.deleteMe && alloc .event offset then
    { c with
      events := c.events ++
        [⟨msg.major, msg.minor, msg.ref, msg.refTo,
          msg.response, msg.size, data⟩] }
  else
    c

/- Go on behind a message of `need` bytes. -/
def advance (c : Conn) (buf : List Byte) (offset need : Int) (msg : Head) : Outcome :=
  let c := { c with prevI := msg }
  let offset := wrap (offset + need)
  if (buf.length : Int) = offset then
    .done { c with buf := none }
  else
    .redo c offset

/- "there is enough data in the buffer for a full message" -/
def deliver (max : Int) (alloc : Alloc) (c : Conn)
    (buf : List Byte) (offset s need : Int) (msg : Head) : Option Outcome :=
  if max < 0 ∨ msg.size.toInt ≤ max then
    if 0 < msg.size.toInt then
      if alloc .payload offset then do
        let data ← readRange buf (offset + s) msg.size.toInt
        let c := emit alloc c offset msg (some data)
        some (advance c buf offset need msg)
      else
        some (.done c)
    else
      let c := emit alloc c offset msg none
      some (advance c buf offset need msg)
  else
    some (advance c buf offset need msg)

/- One pass from "examine header" on. -/
def examine (max : Int) (alloc : Alloc) (c : Conn)
    (buf : List Byte) (offset : Int) : Option Outcome :=
  let avail := wrap (buf.length - offset)
  if 4 ≤ avail then do
    let head ← read32 buf offset
    if avail < headSize head then
      if 0 < offset then
        scroll alloc c buf offset
      else
        some (.done c)
    else do
      let (msg, s) ← decodeHead buf offset head c.prevI
      let msg := clampSize msg
      let need := wrap (s + msg.size.toInt)
      if need ≤ avail then
        deliver max alloc c buf offset s need msg
      else
        scroll alloc c buf offset
  else
    scroll alloc c buf offset

/- The passes over a buffer, `fuel` of them at most. -/
def redoLoop (max : Int) (alloc : Alloc) (buf : List Byte) : Nat → Conn → Int → Option Conn
  | 0, _, _ => none
  | fuel + 1, c, offset => do
    match ← examine max alloc c buf offset with
    | .done c => some c
    | .redo c offset => redoLoop max alloc buf fuel c offset

/- Add a chunk to the buffer, whose new size is an `int`. -/
def appendData (alloc : Alloc) (c : Conn) (data : List Byte) : Option (List Byte) :=
  match c.buf with
  | none => some data
  | some buf =>
    if 0 ≤ wrap (buf.length + data.length) &&
        alloc .realloc 0 then
      some (buf ++ data)
    else
      none

/- A call with a chunk of data. -/
def dataProcess (max : Int) (alloc : Alloc) (c : Conn) (data : List Byte) : Option Conn :=
  match appendData alloc c data with
  | none => some { c with buf := none }
  | some buf =>
    redoLoop max alloc buf (buf.length + 1)
      { c with buf := some buf } 0

/- `ecore_ipc_server_data_process` -/
def serverDataProcess (alloc : Alloc) (svr : Conn) (data : List Byte) : Option Conn :=
  dataProcess svr.maxBufSize alloc svr data

/- The limit of a client, from its own and the server's. -/
def clientMax (svrMax clMax : Int) : Int :=
  if 0 ≤ svrMax ∧ 0 ≤ clMax then
    if clMax < svrMax then clMax else svrMax
  else
    if svrMax < 0 then clMax else svrMax

/- `ecore_ipc_client_data_process` -/
def clientDataProcess (svrMax : Int) (alloc : Alloc) (cl : Conn)
    (data : List Byte) : Option Conn :=
  dataProcess (clientMax svrMax cl.maxBufSize) alloc cl data

end Efl.EcoreIpc
