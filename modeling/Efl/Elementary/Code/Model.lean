import Efl.Lib.Block
import Efl.Lib.CStr

/-
  The document of a code editor: its lines and their texts.

  A line has the address of its record.  A text is in the
  mapped file or in a buffer of the line.  A read at or
  beyond the length of a line, a write outside of a buffer
  and a use of a NULL line where the code follows it are
  `none`.  All allocations succeed; tokens, status and the
  callbacks are left out.

  Main declarations:
    * `Line`, `File`, `Parent`
    * `textSet`, `textInsert`, `textRemove`
-/

---
-- Strings
---

namespace Efl.Elementary.Code

open Bytes

/- `unsigned int` arithmetic -/
def add (a b : Nat) : Nat :=
  (a + b) % 2 ^ 32

def sub (a b : Nat) : Nat :=
  (a + 2 ^ 32 - b) % 2 ^ 32

/-
  What `strncpy` of `n` bytes writes, from a source of which
  `m` may be read.
-/
def strncpy (m : List Byte) (n : Nat) : Option (List Byte) :=
  let text := CStr.text (m.take n)
  if n ≤ m.length ∨ text.length < m.length then
    some (text ++ List.replicate (n - text.length) 0)
  else
    none

/- `eina_strndup` -/
def strndup (m : List Byte) (n : Nat) : Option (List Byte) :=
  let text := CStr.text (m.take n)
  if n ≤ m.length ∨ text.length < m.length then
    some (text ++ [0])
  else
    none

/- What `snprintf (.., size, "%s", m)` writes: it reads all. -/
def snprintf (m : List Byte) (size : Nat) : Option (List Byte) :=
  (CStr.strlen m).map fun n => m.take (min n (size - 1)) ++ [0]

---
-- Lines
---

/-
  `Elm_Code_Line`.  `content` is what is in the mapped file
  from the pointer on, `modified` all of the buffer.
-/
structure Line where
  addr : Nat
  content : Option (List Byte)
  modified : Option (List Byte)
  length : Nat
  number : Nat

/- `Elm_Code_File`, with the address of the next record -/
structure File where
  lines : List Line
  next : Nat

/-
  What a new block has in it, and what the parsers of the
  `Elm_Code` do with a line.
-/
structure Parent where
  junk : Nat → Byte
  parseLine : Line → Line

/- The pointer of `elm_code_line_text_get` -/
def Line.text (line : Line) : Option (List Byte) :=
  match line.modified with
  | some modified => some modified
  | none => line.content

/- What may be read of the text from a position on. -/
def Line.readable (line : Line) (pos : Nat) : List Byte :=
  ((line.text.getD []).take line.length).drop pos

/-
  `elm_code_line_text_set`, where `chars` is what may be read
  of the argument.
-/
def textSet (parent : Parent) (chars : List Byte) (length : Nat) (line : Line) : Option Line := do
  let bytes ← strncpy chars length
  let newtext ← Block.write (Block.fresh parent.junk length) 0
    bytes
  some (parent.parseLine
    { line with modified := some newtext, length := length })

/- `elm_code_line_text_insert` -/
def textInsert (parent : Parent) (position : Nat) (string : List Byte) (length : Nat)
    (line : Line) : Option Line := do
  let inserted := Block.fresh parent.junk (line.length + length)
  let position := min position line.length
  let before ← strncpy (line.readable 0) position
  let inserted ← Block.write inserted 0 before
  let new ← strncpy string length
  let inserted ← Block.write inserted position new
  let after ← strncpy (line.readable position)
    (sub line.length position)
  let inserted ← Block.write inserted (position + length) after
  some (parent.parseLine
    { line with
      modified := some inserted
      length := add line.length length })

/- `elm_code_line_text_remove` -/
def textRemove (parent : Parent) (position length : Nat) (line : Line) : Option Line :=
  if line.length = 0 then
    some line
  else do
    let removed := Block.fresh parent.junk (line.length - length)
    let position := min position line.length
    let before ← strncpy (line.readable 0) position
    let removed ← Block.write removed 0 before
    let after ← strncpy (line.readable (position + length))
      (sub (sub line.length position) length)
    let removed ← Block.write removed position after
    some (parent.parseLine
      { line with
        modified := some removed
        length := sub line.length length })

---
-- Files
---

/- A function on the line that is at an address -/
def onLine (addr : Nat) (f : Line → Option Line) : List Line → Option (List Line)
  | [] => none
  | line :: lines =>
    if line.addr = addr then
      (f line).map (· :: lines)
    else
      (onLine addr f lines).map (line :: ·)

def File.onLine (file : File) (addr : Nat) (f : Line → Option Line) : Option File :=
  (Code.onLine addr f file.lines).map fun lines =>
    { file with lines := lines }

/- `eina_list_append_relative` -/
def appendRelative (line : Line) (after : Line) : List Line → List Line
  | [] => [line]
  | l :: ls =>
    if l.addr = after.addr then
      l :: line :: ls
    else
      l :: appendRelative line after ls

/- The place of a new line -/
def place (line : Line) (row : Nat) (lines : List Line) : List Line :=
  if row = 1 then
    line :: lines
  else if row = lines.length + 1 then
    lines ++ [line]
  else if row < 2 then
    lines ++ [line]
  else
    match lines[row - 2]? with
    | none => lines ++ [line]
    | some after => appendRelative line after lines

/- The line of `_elm_code_file_line_insert_data` -/
def newLine (parent : Parent) (addr : Nat) (content : List Byte)
    (length row : Nat) (mapped : Bool) : Option Line :=
  let line : Line := ⟨addr, none, none, 0, row⟩
  if mapped then
    some { line with content := some content, length := length }
  else do
    let modified := Block.fresh parent.junk (length + 1)
    let bytes ← strncpy content length
    let modified ← Block.write modified 0 bytes
    let modified ← Block.write modified length [0]
    some { line with modified := some modified, length := length }

/- `_elm_code_file_line_insert_data` -/
def insertData (parent : Parent) (file : File) (content : List Byte) (length row : Nat)
    (mapped : Bool) : Option File := do
  let line ← newLine parent file.next content length row mapped
  some
    { lines := place (parent.parseLine line) row file.lines
      next := file.next + 1 }

/- `elm_code_file_line_get`; the one before 1 is NULL. -/
def File.lineGet (file : File) (number : Nat) : Option Line :=
  match number with
  | 0 => none
  | n + 1 => file.lines[n]?

/-
  The lines of `elm_code_file_open`, with what is in the file
  from the start of each line on, and its length
-/
def fileOpen (parent : Parent) (lines : List (List Byte × Nat)) : Option File :=
  lines.foldlM (fun file line =>
    insertData parent file line.1 line.2
      (file.lines.length + 1) true) ⟨[], 0⟩

/- `elm_code_file_line_append` -/
def lineAppend (parent : Parent) (file : File) (text : List Byte) : Option File :=
  insertData parent file text text.length
    (file.lines.length + 1) false

/- The scan of `elm_code_file_line_insert` -/
def renumber (row : Nat) : Nat → List Line → List Line
  | _, [] => []
  | r, line :: lines =>
    if line.number < row then
      line :: renumber row r lines
    else
      { line with number := r } :: renumber row (r + 1) lines

/- `elm_code_file_line_insert` -/
def lineInsert (parent : Parent) (file : File) (row : Nat)
    (text : List Byte) (length : Nat) : Option File := do
  let file ← insertData parent file text length row false
  some { file with lines := renumber row row file.lines }

/- The scan of `elm_code_file_line_remove` -/
def removeRow (row : Nat) : Nat → List Line → List Line
  | _, [] => []
  | r, line :: lines =>
    if line.number < row then
      line :: removeRow row r lines
    else if line.number = row then
      removeRow row r lines
    else
      { line with number := r } :: removeRow row (r + 1) lines

/- `elm_code_file_line_remove` -/
def lineRemove (file : File) (row : Nat) : File :=
  { file with lines := removeRow row row file.lines }

/- `elm_code_line_text_set` of a line of the file, or of NULL -/
def File.textSet (parent : Parent) (file : File)
    (line : Option Line) (chars : List Byte) (length : Nat) : Option File :=
  match line with
  | none => some file
  | some line =>
    file.onLine line.addr (Code.textSet parent chars length)

/- `elm_code_line_split_at` -/
def splitAt (parent : Parent) (file : File) (line : Line) (position : Nat) : Option File :=
  match line.text with
  | none => some file
  | some _ => do
    let length := line.length
    let content ← strndup (line.readable 0) length
    let file ← lineInsert parent file (line.number + 1) [0] 0
    let newline := file.lineGet (line.number + 1)
    let file ← file.textSet parent newline
      (content.drop position) (sub length position)
    file.textSet parent (some line) content position

/- The text of a line is appended to a new one. -/
def copyText (newtext : List Byte) (pos : Nat) (line : Line) : Option (List Byte) :=
  if 0 < line.length then do
    let bytes ← snprintf (line.readable 0) (line.length + 1)
    Block.write newtext pos bytes
  else
    some newtext

/- `_elm_code_line_merge_into` -/
def mergeInto (parent : Parent) (file : File) (line₁ line₂ : Line) : Option File := do
  let length₁ := line₁.length
  let length₂ := line₂.length
  let newtext := Block.fresh parent.junk
    (add (add length₁ length₂) 1)
  let newtext ← copyText newtext 0 line₁
  let newtext ← copyText newtext length₁ line₂
  (lineRemove file line₂.number).textSet parent (some line₁)
    newtext (add length₁ length₂)

/- `elm_code_line_merge_up` -/
def mergeUp (parent : Parent) (file : File) (line : Line) : Option File :=
  match file.lineGet (line.number - 1) with
  | none => some file
  | some other => mergeInto parent file other line

/- `elm_code_line_merge_down` -/
def mergeDown (parent : Parent) (file : File) (line : Line) : Option File :=
  match file.lineGet (line.number + 1) with
  | none => some file
  | some other => mergeInto parent file line other

end Efl.Elementary.Code
