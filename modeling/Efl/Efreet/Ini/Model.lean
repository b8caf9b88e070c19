import Efl.Eina.FileLines
import Efl.Ecore.CommandLine
import Efl.Lib.CStr
import Mathlib.Data.List.DropRight

/-
  Ini files: how they are written, and how they are read.

  A hash is the list of its entries in the order of
  `eina_hash_foreach`, whichever that is; an added entry is
  put in front.  Files can be opened and written, and memory
  is always there.

  Main declarations:
    * `Ini`
    * `unescape`, `parseLine`, `parse`
-/

---
-- Hashes of Strings
---

namespace Efl.Efreet.Ini

open Bytes

/- The bytes of a C string -/
abbrev Str := List Byte

/- The keys of a section with their values -/
abbrev Section := List (Str × Str)

/- The sections of `Efreet_Ini`, its `data` -/
abbrev Data := List (Str × Section)

/- `eina_hash_del_by_key`, then `eina_hash_add` -/
def replace {V : Type} (hash : List (Str × V)) (key : Str) (v : V) : List (Str × V) :=
  (key, v) :: hash.filter fun p => p.1 ≠ key

/- A hash has its keys once; a C string has no NUL. -/
structure Hashes (data : Data) : Prop where
  names : (data.map Prod.fst).Nodup
  keys : ∀ s ∈ data, (s.2.map Prod.fst).Nodup
  noNul :
    ∀ s ∈ data, 0 ∉ s.1 ∧ ∀ p ∈ s.2, 0 ∉ p.1 ∧ 0 ∉ p.2

---
-- The Writer
---

open Eina.FileLines

def openBracket : Byte := 0x5b

def closeBracket : Byte := 0x5d

def equals : Byte := 0x3d

def hashSign : Byte := 0x23

def backslash : Byte := 0x5c

/- `efreet_ini_value_save` -/
def valueSave (p : Str × Str) : List Byte :=
  p.1 ++ equals :: p.2 ++ [lineFeed]

/- `efreet_ini_section_save` -/
def sectionSave (s : Str × Section) : List Byte :=
  openBracket :: s.1 ++ [closeBracket, lineFeed] ++
    s.2.flatMap valueSave

/- What `efreet_ini_save` writes -/
def save (data : Data) : List Byte :=
  data.flatMap sectionSave

---
-- The Reader
---

/- `isspace` -/
def isSpace (c : Byte) : Bool :=
  c.toNat = 32 ∨ 9 ≤ c.toNat ∧ c.toNat ≤ 13

/- What stands for a backslash and the byte after it -/
def unescapeByte (c : Byte) : List Byte :=
  if c = 0x73 then [0x20]
  else if c = 0x6e then [0x0a]
  else if c = 0x74 then [0x09]
  else if c = 0x72 then [0x0d]
  else if c = backslash then [backslash]
  else [backslash, c]

/- The loop of `efreet_ini_unescape` -/
def unescapeLoop : Str → Str
  | [] => []
  | [c] => [c]
  | c :: d :: rest =>
    if c = backslash then
      unescapeByte d ++ unescapeLoop rest
    else
      c :: unescapeLoop (d :: rest)

/-
  `efreet_ini_unescape`; a shared string of one byte that is
  negative is read outside of the table for such strings.
-/
def unescape (str : Str) : Option Str :=
  if backslash ∈ str then
    Ecore.CommandLine.stringshareAdd (unescapeLoop str)
  else
    Ecore.CommandLine.stringshareAdd str

/- The text without the white space around it -/
def trim (text : Str) : Str :=
  (text.rdropWhile isSpace).dropWhile isSpace

/- The value of a line, from what is behind the `=` -/
def readValue (text : Str) : Option Str :=
  if trim text = [] then
    some []
  else
    unescape (CStr.text (trim text))

/- What a line with a key does to the section -/
def readEntry (text : Str) (fields : Section) : Option Section :=
  let key := (text.takeWhile (· ≠ equals)).rdropWhile isSpace
  if key = [] then
    some fields
  else do
    let value ← readValue
      ((text.dropWhile (· ≠ equals)).drop 1)
    some (replace fields (CStr.text key) value)

/-
  A line of `efreet_ini_parse`.  The section of the lines that
  follow a header is the first one.  The inner `none` is the
  jump to `error`.
-/
def parseLine (data : Data) (line : List Byte) : Option (Option Data) :=
  match line.dropWhile isSpace with
  | [] => some (some data)
  | c :: rest =>
    if c = hashSign then
      some (some data)
    else if c = openBracket then
      if closeBracket ∈ rest then
        let header :=
          CStr.text (rest.takeWhile (· ≠ closeBracket))
        some (some (replace data header []))
      else
        some (some data)
    else
      match data with
      | [] => some none
      | (name, fields) :: others =>
        if equals ∈ c :: rest then do
          let fields ← readEntry (c :: rest) fields
          some (some ((name, fields) :: others))
        else
          some none

/- The loop of `efreet_ini_parse` -/
def parseLines : Data → List (List Byte) → Option (Option Data)
  | data, [] => some (some data)
  | data, line :: lines => do
    match ← parseLine data line with
    | none => some none
    | some data => parseLines data lines

/-
  `efreet_ini_parse` of a file that is mapped at `address`: a
  NULL hash is `some none`, a read outside of a table `none`.
-/
def parse (address : Nat) (file : List Byte) : Option (Option Data) :=
  match mapLines address file with
  | none => some none
  | some lines => parseLines [] lines

end Efl.Efreet.Ini
