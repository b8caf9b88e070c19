import Efl.Lib.Block
import Efl.Lib.CStr

/-
  String buffers, with bytes as their characters.

  A buffer is over memory of its own, or over memory that the
  caller has given and that must not be written.  An access
  outside of the memory, and the difference of pointers into
  two blocks, is `none`.

  Main declarations:
    * `Strbuf`, `Alloc`
    * `resize`, `grow`
-/

---
-- Buffers
---

namespace Efl.Strbuf

open Bytes

/- What is in new memory, if there is any. -/
abbrev Memory :=
  Option (Nat → Byte)

/- The outcomes of the allocations of a call. -/
abbrev Alloc :=
  Nat → Memory

/- What `buf->buf` points to -/
inductive Place where
  | null
  | given
  | owned
  deriving DecidableEq

/-
  `_Eina_Strbuf`, with the memory that it was given, and
  whether that was written.
-/
structure Buffer where
  given : List Byte
  written : Bool
  own : List Byte
  place : Place
  len : Nat
  size : Nat
  step : Nat
  ro : Bool

/- `EINA_STRBUF_INIT_SIZE`, `EINA_STRBUF_INIT_STEP` -/
def initSize : Nat :=
  32

def initStep : Nat :=
  32

/- `EINA_STRBUF_MAX_STEP` -/
def maxStep : Nat :=
  4096

/- A `size_t` is below this. -/
def sizeMax : Nat :=
  2 ^ 64

/- The memory at `buf->buf` -/
def Buffer.bytes (s : Buffer) : List Byte :=
  match s.place with
  | .null => []
  | .given => s.given
  | .owned => s.own

def Buffer.setBytes (s : Buffer) (m : List Byte) : Buffer :=
  match s.place with
  | .null => s
  | .given => { s with given := m, written := true }
  | .owned => { s with own := m }

def Buffer.write (s : Buffer) (pos : Nat) (bs : List Byte) : Option Buffer := do
  let m ← Block.write s.bytes pos bs
  some (s.setBytes m)

def Buffer.move (s : Buffer) (dst src n : Nat) : Option Buffer := do
  let m ← Block.move s.bytes dst src n
  some (s.setBytes m)

/- `_eina_strbuf_common_init` -/
def init (memory : Memory) (s : Buffer) : Buffer × Bool :=
  let s := { s with
    ro := false
    len := 0
    size := initSize
    step := initStep }
  match memory with
  | none => ({ s with place := .null }, false)
  | some _ =>
    ({ s with
      own := List.replicate initSize 0
      place := .owned }, true)

/- `eina_strbuf_new`; it does not survive a failure. -/
def new (alloc : Alloc) : Option Buffer := do
  let _ ← alloc 0
  let (s, ok) := init (alloc 1)
    ⟨[], false, [], .null, 0, 0, 0, false⟩
  if ok then some s else none

/- `eina_strbuf_common_manage_new` -/
def manageNew (mem : List Byte) (len : Nat) : Buffer where
  given := []
  written := false
  own := mem
  place := .owned
  len := len
  size := len + 1
  step := initStep
  ro := false

/- `eina_strbuf_manage_new_length` of a terminated string -/
def manageNewLength (alloc : Alloc) (str : List Byte) : Option Buffer := do
  let _ ← alloc 0
  some (manageNew (str ++ [0]) str.length)

/- `eina_strbuf_common_manage_ro_new` -/
def manageRoNew (str : List Byte) (len : Nat) : Buffer where
  given := str
  written := false
  own := []
  place := .given
  len := len
  size := len + 1
  step := initStep
  ro := true

---
-- Sizes
---

/- The step of a resize to another size. -/
def newStepOf (s : Buffer) (size : Nat) : Nat :=
  let delta :=
    if s.size < size then size - s.size else s.size - size
  if delta ≤ s.step ∧ s.size < size then
    s.step
  else
    min ((delta / initStep + 1) * initStep) maxStep

def newSizeOf (size newStep : Nat) : Nat :=
  (size / newStep + 1) * newStep % sizeMax

/-
  The new memory of a resize: a copy of what is read-only, or
  the result of `realloc`.
-/
def newMemory (junk : Nat → Byte) (s : Buffer) (newSize : Nat) : Option (List Byte) :=
  if s.ro then do
    let bs ← Block.read s.bytes 0 s.len
    Block.write (Block.fresh junk newSize) 0 bs
  else
    match s.place with
    | .null => some (Block.fresh junk newSize)
    | .given => none
    | .owned => some (Block.realloc junk s.own newSize)

/- `_eina_strbuf_common_resize`, and whether it succeeds -/
def resize (memory : Memory) (s : Buffer) (size : Nat) : Option (Buffer × Bool) :=
  let size := (size + 1) % sizeMax
  if size = s.size then
    some (s, true)
  else
    let newStep := newStepOf s size
    let newSize := newSizeOf size newStep
    if s.size = newSize then
      some (s, true)
    else
      match memory with
      | none => some (s, false)
      | some junk => do
        let own ← newMemory junk s newSize
        some
          ({ s with
            own := own
            place := .owned
            ro := false
            size := newSize
            step := newStep }, true)

/- `_eina_strbuf_common_grow` -/
def grow (memory : Memory) (s : Buffer) (size : Nat) : Option (Buffer × Bool) :=
  if (size + 1) % sizeMax < s.size then
    some (s, true)
  else
    resize memory s size

/-
  The copy before the first write.  The buffer stays marked as
  read-only.
-/
def copy (memory : Memory) (s : Buffer) : Option (Buffer × Bool) :=
  if s.ro then
    match memory with
    | none => some (s, false)
    | some junk => do
      let bs ← Block.read s.bytes 0 s.len
      let own ← Block.write (Block.fresh junk s.size) 0 bs
      some ({ s with own := own, place := .owned }, true)
  else
    some (s, true)

---
-- Append, Insert and Remove
---

/- `eina_strbuf_append`; the NUL of the string is copied, too. -/
def append (memory : Memory) (s : Buffer) (str : CString) : Option (Buffer × Bool) := do
  let len := str.chars.length
  let (s, ok) ← grow memory s ((s.len + len) % sizeMax)
  if ok then do
    let s ← s.write s.len (str.chars ++ [0])
    some ({ s with len := s.len + len }, true)
  else
    some (s, false)

/- `eina_strbuf_append_length` -/
def appendLength (memory : Memory) (s : Buffer) (str : List Byte) : Option (Buffer × Bool) := do
  let len := str.length
  let (s, ok) ← grow memory s ((s.len + len) % sizeMax)
  if ok then do
    let s ← s.write s.len str
    let s := { s with len := s.len + len }
    let s ← s.write s.len [0]
    some (s, true)
  else
    some (s, false)

/- `eina_strbuf_append_n` -/
def appendN (memory : Memory) (s : Buffer) (str : CString)
    (maxlen : Nat) : Option (Buffer × Bool) :=
  appendLength memory s (str.chars.take maxlen)

/- `eina_strbuf_append_slice` -/
def appendSlice (memory : Memory) (s : Buffer) (slice : List Byte) : Option (Buffer × Bool) :=
  appendLength memory s slice

/- `eina_strbuf_append_char` -/
def appendChar (memory : Memory) (s : Buffer) (c : Byte) : Option (Buffer × Bool) :=
  appendLength memory s [c]

/- `_eina_strbuf_common_insert_length` -/
def insertAt (memory : Memory) (s : Buffer) (str : List Byte)
    (pos : Nat) : Option (Buffer × Bool) := do
  let len := str.length
  let (s, ok) ← grow memory s ((s.len + len) % sizeMax)
  if ok then do
    let s ← s.move (len + pos) pos (s.len - pos)
    let s ← s.write pos str
    let s := { s with len := s.len + len }
    let s ← s.write s.len [0]
    some (s, true)
  else
    some (s, false)

/- `eina_strbuf_insert` -/
def insert (memory : Memory) (s : Buffer) (str : CString) (pos : Nat) : Option (Buffer × Bool) :=
  if s.len ≤ pos then
    append memory s str
  else
    insertAt memory s str.chars pos

/- `eina_strbuf_insert_length` -/
def insertLength (memory : Memory) (s : Buffer)
    (str : List Byte) (pos : Nat) : Option (Buffer × Bool) :=
  if s.len ≤ pos then
    appendLength memory s str
  else
    insertAt memory s str pos

/- `eina_strbuf_insert_n` -/
def insertN (memory : Memory) (s : Buffer) (str : CString)
    (maxlen pos : Nat) : Option (Buffer × Bool) :=
  insertLength memory s (str.chars.take maxlen) pos

/- `eina_strbuf_insert_slice` -/
def insertSlice (memory : Memory) (s : Buffer)
    (slice : List Byte) (pos : Nat) : Option (Buffer × Bool) :=
  insertLength memory s slice pos

/- `eina_strbuf_insert_char` -/
def insertChar (memory : Memory) (s : Buffer) (c : Byte) (pos : Nat) : Option (Buffer × Bool) :=
  insertLength memory s [c] pos

/- `eina_strbuf_remove` -/
def remove (alloc : Alloc) (s : Buffer) (start stop : Nat) : Option (Buffer × Bool) :=
  let stop := if s.len ≤ stop then s.len else stop
  if stop ≤ start then
    some (s, true)
  else do
    let (s, ok) ← copy (alloc 0) s
    if ok then
      let removeLen := stop - start
      if removeLen = s.len then
        some (init (alloc 1) s)
      else do
        let s ← s.move start stop (s.len - stop + 1)
        let s := { s with len := s.len - removeLen }
        resize (alloc 1) s s.len
    else
      some (s, false)

/- `eina_strbuf_reset` -/
def reset (memory : Memory) (s : Buffer) : Option Buffer :=
  if s.ro then
    some (init memory s).1
  else
    { s with len := 0, step := initStep }.write 0 [0]

---
-- Replace
---

open CStr

/-
  The loop that looks for the n-th occurrence; it steps over
  the first byte of each of the others.
-/
def findNth (m str : List Byte) : Nat → Nat → Option (Option Nat)
  | 0, spos => some (some spos)
  | n + 1, spos => do
    let found ← strstr m spos str
    match found with
    | none => some none
    | some spos => do
      let c ← m[spos]?
      if c = 0 then
        some none
      else
        findNth m str n (if n = 0 then spos else spos + 1)

/- Room for a string in the place of one of another length. -/
def makeRoom (memory : Memory) (s : Buffer) (pos len1 len2 len : Nat) : Option (Buffer × Bool) :=
  if len1 ≠ len2 then do
    let (s, ok) ← grow memory s len
    if ok then
      if s.len < pos + len1 then
        none
      else do
        let s ← s.move (pos + len2) (pos + len1)
          (s.len - pos - len1)
        some (s, true)
    else
      some (s, false)
  else
    some (s, true)

/- `eina_strbuf_replace` -/
def replace (alloc : Alloc) (s : Buffer) (str new : CString) (n : Nat) : Option (Buffer × Bool) :=
  if n = 0 then
    some (s, false)
  else do
    let found ← findNth s.bytes str.chars n 0
    match found with
    | none => some (s, false)
    | some pos => do
      let ro := s.ro
      let (s, ok) ← copy (alloc 0) s
      if ok then
        -- The position is in the memory before the copy.
        if ro then
          none
        else do
          let len1 := str.chars.length
          let len2 := new.chars.length
          let len :=
            (s.len + sizeMax - len1 + len2) % sizeMax
          let (s, ok) ← makeRoom (alloc 1) s pos len1 len2 len
          if ok then do
            let s ← s.write pos new.chars
            let s := { s with len := len }
            let s ← s.write s.len [0]
            some (s, true)
          else
            some (s, false)
      else
        some (s, false)

/-
  The loop for strings of the same length, from an occurrence
  on.
-/
def overwriteAll (str new : List Byte) : Nat → List Byte → Nat → Nat → Option (List Byte × Nat)
  | 0, _, _, _ => none
  | fuel + 1, m, spos, n => do
    let m ← Block.write m spos new
    let found ← strstr m (spos + new.length) str
    match found with
    | none => some (m, n + 1)
    | some spos => overwriteAll str new fuel m spos (n + 1)

/- The variables of the other loop. -/
structure Progress where
  buffer : Buffer
  len : Nat
  start : Nat
  startTmp : Nat
  count : Nat

/-
  The loop for strings of two lengths, from an occurrence on:
  `posTmp` is its position in the old memory, `pos` the one in
  the new memory.
-/
def replaceLoop (alloc : Alloc) (tmp str new : List Byte) :
    Nat → Nat → Nat → Progress → Option Progress
  | 0, _, _, _ => none
  | fuel + 1, posTmp, pos, p => do
    let count := p.count + 1
    let len :=
      (p.len + new.length + sizeMax - str.length) % sizeMax
    let (s, ok) ← grow (alloc (count + 1)) p.buffer len
    if ok then do
      let bs ← Block.read tmp p.startTmp (pos - p.start)
      let s ← s.write p.start bs
      let s ← s.write pos new
      let startTmp := posTmp + str.length
      let start := pos + new.length
      let p := ⟨s, len, start, startTmp, count⟩
      let found ← strstr tmp startTmp str
      match found with
      | none => some p
      | some posTmp =>
        replaceLoop alloc tmp str new fuel posTmp
          (start + posTmp - startTmp) p
    else
      some { p with buffer := s, count := count }

/- `eina_strbuf_replace_all`, and the number it returns -/
def replaceAll (alloc : Alloc) (s : Buffer) (str new : CString) : Option (Buffer × Nat) := do
  let found ← strstr s.bytes 0 str.chars
  match found with
  | none => some (s, 0)
  | some spos => do
    let c ← s.bytes[spos]?
    if c = 0 then
      some (s, 0)
    else do
      let tmp := s.bytes
      let old := s
      let (s, ok) ← copy (alloc 0) s
      if ok then
        if str.chars.length = new.chars.length then do
          -- The loop is in the memory before the copy.
          let (m, count) ← overwriteAll str.chars new.chars
            (tmp.length + 1) tmp spos 0
          if old.ro then
            match old.place with
            | .given =>
              some ({ s with
                given := m
                written := true }, count)
            | _ => some (s, count)
          else
            some (s.setBytes m, count)
        else if old.ro then
          none
        else
          match alloc 1 with
          | none => some (s, 0)
          | some junk => do
            let s := { s with
              own := Block.fresh junk s.size
              place := .owned }
            let p ← replaceLoop alloc tmp str.chars new.chars
              (tmp.length + 1) spos spos ⟨s, s.len, 0, 0, 0⟩
            let bs ← Block.read tmp p.startTmp
              (p.len - p.start)
            let s ← p.buffer.write p.start bs
            let s ← { s with len := p.len }.write p.len [0]
            some (s, p.count)
      else
        some (s, 0)

---
-- Trim, Lower Case and Substrings
---

/- `isspace` -/
def isSpace (c : Byte) : Bool :=
  c.toNat = 32 ∨ 9 ≤ c.toNat ∧ c.toNat ≤ 13

/- `tolower` -/
def lower (c : Byte) : Byte :=
  if 65 ≤ c.toNat ∧ c.toNat ≤ 90 then c + 32 else c

/- The length without the spaces at the end. -/
def rtrimLen (m : List Byte) : Nat → Option Nat
  | 0 => some 0
  | len + 1 => do
    let c ← m[len]?
    if isSpace c then rtrimLen m len else some (len + 1)

/- The start behind the spaces, and the length from there. -/
def ltrimFrom (m : List Byte) : Nat → Nat → Option (Nat × Nat)
  | 0, c => some (c, 0)
  | len + 1, c => do
    let b ← m[c]?
    if isSpace b then
      ltrimFrom m len (c + 1)
    else
      some (c, len + 1)

/- `eina_strbuf_trim` -/
def trim (s : Buffer) : Option Buffer := do
  let len ← rtrimLen s.bytes s.len
  let (c, len) ← ltrimFrom s.bytes len 0
  let s ← { s with len := len }.move 0 c len
  s.write len [0]

/- `eina_strbuf_ltrim` -/
def ltrim (s : Buffer) : Option Buffer := do
  let (c, len) ← ltrimFrom s.bytes s.len 0
  let s ← { s with len := len }.move 0 c len
  s.write len [0]

/- `eina_strbuf_rtrim` -/
def rtrim (s : Buffer) : Option Buffer := do
  let len ← rtrimLen s.bytes s.len
  { s with len := len }.write len [0]

/- `eina_str_tolower`, up to the NUL -/
def lowerText : List Byte → Option (List Byte)
  | [] => none
  | c :: cs =>
    if c = 0 then
      some (c :: cs)
    else
      (lowerText cs).map (lower c :: ·)

/- `eina_strbuf_tolower`; an empty text is not written. -/
def tolower (s : Buffer) : Option Buffer :=
  if s.place = .null then
    some s
  else do
    let length ← strlen s.bytes
    let m ← lowerText s.bytes
    some (if length = 0 then s else s.setBytes m)

/- What `strncpy` writes -/
def strncpy (m : List Byte) (pos : Nat) : Nat → Option (List Byte)
  | 0 => some []
  | n + 1 => do
    let c ← m[pos]?
    if c = 0 then
      some (List.replicate (n + 1) 0)
    else do
      let cs ← strncpy m (pos + 1) n
      some (c :: cs)

/- `eina_strbuf_substr_get`; the answer NULL is `none`. -/
def substrGet (alloc : Alloc) (s : Buffer) (pos len : Nat) : Option (Option Buffer) :=
  if s.len < (pos + len) % sizeMax then
    some none
  else do
    let _ ← alloc 0
    let _ ← alloc 1
    let bs ← strncpy s.bytes pos len
    let str ← Block.write
      (List.replicate ((len + 1) % sizeMax) 0) 0 bs
    let length ← strlen str
    some (some (manageNew str length))

end Efl.Strbuf
