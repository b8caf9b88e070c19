import Efl.Lib.Bytes
import Efl.Lib.CInt
import Mathlib.Logic.Function.Basic

/-
  Eet files: the dictionary, and the reader of a file in the
  current format.

  Main declarations:
    * `Mapped`
    * `Dictionary.lookup`, `Dictionary.stringAdd`
-/

---
-- Mapped Files
---

namespace Efl.Eet

open Bytes

/-
  A file that is mapped at the address `addr`.  Behind its
  `size` bytes there is whatever the memory holds.
-/
structure Mapped where
  addr : Nat
  size : Nat
  byte : Nat → Byte

namespace Mapped

/- `eina_ntohl` of the four bytes at a position. -/
def word (m : Mapped) (p : Nat) : Word :=
  ofBe32 (m.byte p) (m.byte (p + 1)) (m.byte (p + 2))
    (m.byte (p + 3))

/- The bytes of a range. -/
def range (m : Mapped) (p n : Nat) : List Byte :=
  (List.range n).map fun i => m.byte (p + i)

/- The string at a position, which ends within `n` bytes. -/
def string (m : Mapped) (p n : Nat) : List Byte :=
  (m.range p n).takeWhile (· ≠ 0)

end Mapped

/- A C string: its address, and its bytes before the NUL. -/
structure Str where
  addr : Nat
  chars : List Byte
  deriving DecidableEq

/- The loop of `_eet_hash_gen`. -/
def hashFrom : Nat → Nat → List Byte → Nat
  | _, hash, [] => hash
  | i, hash, b :: bs =>
    let value := b.toNat
    hashFrom (i + 1)
      (hash ^^^ ((value ||| (value <<< 8)) >>> (i &&& 7))) bs

/- `_eet_hash_gen`, which always is called for 8 bits. -/
def hashGen (key : List Byte) : Nat :=
  hashFrom 0 0 key &&& 255

theorem hashGen_lt (key : List Byte) : hashGen key < 256 := by
  unfold hashGen
  have hLe := Nat.and_le_right (n := hashFrom 0 0 key) (m := 255)
  omega

---
-- The Dictionary
---

/- `Eet_String`, with its byte of `all_hash`. -/
structure DictString where
  str : Str
  len : Int
  next : Int
  hash : Nat
  deriving DecidableEq

/- `Eet_Dictionary`.  `all` has the strings up to `count`. -/
structure Dictionary where
  all : List DictString
  hash : Nat → Int
  count : Int
  total : Int

namespace Dictionary

/- `eet_dictionary_add` -/
def new : Dictionary where
  all := []
  hash _ := -1
  count := 0
  total := 0

/- The test of `_eet_dictionary_lookup`. -/
def Matches (s : DictString) (string : Str) (len : Int) : Prop :=
  s.str.addr = string.addr ∨
    s.len = len ∧ s.str.chars = string.chars

instance (s : DictString) (string : Str) (len : Int) : Decidable (Matches s string len) :=
  inferInstanceAs (Decidable (_ ∨ _))

/- The string with an index, if it is in the table. -/
def get? (ed : Dictionary) (i : Int) : Option DictString :=
  if i < 0 then none else ed.all[i.toNat]?

/-
  The loop of `_eet_dictionary_lookup`.  `none` is an access
  outside of the table, or a chain without an end.
-/
def lookupFrom (ed : Dictionary) (string : Str) (len : Int) : Nat → Int → Option Int
  | fuel, current =>
    if current = -1 then
      some (-1)
    else
      match fuel with
      | 0 => none
      | fuel + 1 => do
        let s ← ed.get? current
        if Matches s string len then
          some current
        else
          lookupFrom ed string len fuel s.next

/- `strlen(string) + 1`, an `int`. -/
def sizeOf (string : Str) : Int :=
  CInt.wrap (string.chars.length + 1)

/- `_eet_dictionary_lookup`, with the arguments it gets. -/
def lookup (ed : Dictionary) (string : Str) : Option Int :=
  ed.lookupFrom string (sizeOf string) ed.all.length
    (ed.hash (hashGen string.chars))

/-
  What `eina_stringshare_add` and the three calls of `realloc`
  return: the address of the copy, and whether there is
  memory for a larger table.
-/
structure Memory where
  share : Option Nat
  grows : Bool

/- The table that has room for one more string. -/
def grow (ed : Dictionary) (memory : Memory) : Option (Option Dictionary) :=
  if ed.total = ed.count then
    if CInt.intMax < ed.total + 64 then
      none
    else if memory.grows ∧ 0 < ed.total + 64 then
      some (some { ed with total := ed.total + 64 })
    else
      some none
  else
    some (some ed)

/-
  `eet_dictionary_string_add`.  `none` is a fault: one of the
  lookup, an overflow of `total`, or a write before the table.
-/
def stringAdd (ed : Dictionary) (string : Str) (memory : Memory) : Option (Dictionary × Int) := do
  let idx ← ed.lookup string
  if idx ≠ -1 then
    some (ed, idx)
  else
    match memory.share with
    | none => some (ed, -1)
    | some addr => do
      let grown ← ed.grow memory
      match grown with
      | none => some (ed, -1)
      | some ed =>
        if ed.count < 0 then
          none
        else
          let hash := hashGen string.chars
          let s : DictString :=
            { str := ⟨addr, string.chars⟩
              len := sizeOf string
              next := ed.hash hash
              hash := hash }
          some
            ({ ed with
              all := ed.all ++ [s]
              hash := Function.update ed.hash hash ed.count
              count := ed.count + 1 }, ed.count)

end Dictionary

---
-- The Reader
---

open Function

/-
  `Eet_File_Node`.  `nameAt` is the position of a name that
  is in the mapped file (`free_name` is 0), and `data` the
  data that is in memory.
-/
structure FileNode where
  name : List Byte
  nameAt : Option Nat
  nameSize : Nat
  offset : Nat
  size : Nat
  dataSize : Nat
  compressionType : Nat
  compression : Bool
  ciphered : Bool
  isAlias : Bool
  data : Option (List Byte)
  deriving DecidableEq

/- The hash table of a directory, of 256 lists. -/
abbrev Nodes :=
  Nat → List FileNode

/- A node in front of its bucket. -/
def Nodes.push (nodes : Nodes) (efn : FileNode) : Nodes :=
  let hash := hashGen efn.name
  update nodes hash (efn :: nodes hash)

/- A sum of `unsigned int`. -/
def uintAdd (a b : Nat) : Nat :=
  (a + b) % 2 ^ 32

/- `EET_MAGIC_FILE2` -/
def magicFile2 : Word :=
  0x1ee70f42#32

/-
  What decides besides the file: whether it is opened for
  reading only, whether there is memory for a copy of the data
  of an entry, and whether the check of a signature behind a
  position lets the file be opened.
-/
structure Opening where
  readOnly : Bool
  copies : Nat → Bool
  identity : Nat → Bool

/- `bytes_directory_entries + bytes_dictionary_entries` -/
def tableBytes (entries strings : Nat) : Nat :=
  24 * entries + 12 + 20 * strings

/- One entry of the directory, or `none` for a bad one. -/
def readNode (m : Mapped) (opening : Opening) (base i : Nat) : Option FileNode :=
  let p := 12 + 24 * i
  let offset := (m.word p).toNat
  let size := (m.word (p + 4)).toNat
  let dataSize := (m.word (p + 8)).toNat
  let nameOffset := (m.word (p + 12)).toNat
  let nameSize := (m.word (p + 16)).toNat
  let flag := m.word (p + 20)
  if ¬ (0 < size ∧ uintAdd offset size ≤ m.size ∧
      base < offset) then
    none
  else if ¬ (0 < nameSize ∧ nameOffset + nameSize < m.size ∧
      base ≤ nameOffset) then
    none
  else if m.byte (nameOffset + nameSize - 1) ≠ 0 then
    none
  else
    some
      { name := m.string nameOffset nameSize
        nameAt := some nameOffset
        nameSize := nameSize
        offset := offset
        size := size
        dataSize := dataSize
        compressionType := ((flag >>> 3) &&& 0xff#32).toNat
        compression := flag &&& 1#32 ≠ 0#32
        ciphered := flag &&& 2#32 ≠ 0#32
        isAlias := flag &&& 4#32 ≠ 0#32
        data :=
          if opening.readOnly ∨ ¬ opening.copies i then none
          else some (m.range offset size) }

/- One entry of the dictionary, as the file has it. -/
structure StringEntry where
  hash : Nat
  offset : Nat
  len : Int
  prev : Int
  next : Int

/- Its words, from the position `p` on. -/
def stringEntry (m : Mapped) (p : Nat) : StringEntry where
  hash := (m.word p).toNat
  offset := (m.word (p + 4)).toNat
  len := (m.word (p + 8)).toInt
  prev := (m.word (p + 12)).toInt
  next := (m.word (p + 16)).toInt

/- The sum of `offset`, which is unsigned, and `len`. -/
def StringEntry.last (e : StringEntry) : Nat :=
  uintAdd e.offset (e.len % 2 ^ 32).toNat

/- The entry with index `j`, or `none` for a bad one. -/
def readString (m : Mapped) (entries base j : Nat) : Option StringEntry :=
  let e := stringEntry m (12 + 24 * entries + 20 * j)
  if 256 ≤ e.hash then
    none
  else if ¬ (0 < e.len ∧ base < e.offset ∧ e.last < m.size) then
    none
  else if m.byte (e.offset + (e.len - 1).toNat) ≠ 0 then
    none
  else
    some e

/- The string of an entry. -/
def StringEntry.load (m : Mapped) (e : StringEntry) : DictString where
  str := ⟨m.addr + e.offset, m.string e.offset e.len.toNat⟩
  len := e.len
  next := e.next
  hash := e.hash

/- The heads: the last entry of a hash that has no `prev`. -/
def headsFrom : Nat → (Nat → Int) → List StringEntry → Nat → Int
  | _, hash, [] => hash
  | j, hash, e :: es =>
    headsFrom (j + 1)
      (if e.prev = -1 then update hash e.hash j
        else hash) es

/- The dictionary of these entries. -/
def loadDictionary (m : Mapped) (strings : Nat) (es : List StringEntry) : Dictionary where
  all := es.map fun e => e.load m
  hash := headsFrom 0 (fun _ => -1) es
  count := CInt.wrap strings
  total := CInt.wrap strings

/- An `int` that is converted to `unsigned long`. -/
def toUlong (x : Int) : Nat :=
  (x % 2 ^ 64).toNat

/- What is read from a file. -/
structure Contents where
  nodes : Nodes
  ed : Option Dictionary

/- Where the entries of the directory end at the latest. -/
def signatureBase (m : Mapped) (entries : List FileNode) (strings : List StringEntry) : Nat :=
  let start := if entries = [] then m.size else 0
  let afterNodes := entries.foldl
    (fun base efn => max base (uintAdd efn.offset efn.size)) start
  strings.foldl (fun base e => max base e.last) afterNodes

/- `eet_internal_read2`; `none` when the file is not opened. -/
def read2 (m : Mapped) (opening : Opening) : Option Contents :=
  let entries := (m.word 4).toNat
  let strings := (m.word 8).toNat
  let base := tableBytes entries strings
  if m.word 0 ≠ magicFile2 then
    none
  else if 0x7fffffff < entries then
    none
  else if m.size < base then
    none
  else do
    let efns ← (List.range entries).mapM
      (readNode m opening base)
    let nodes := efns.foldl Nodes.push fun _ => []
    let idx := CInt.wrap (12 + 24 * entries)
    if strings = 0 then
      if signatureBase m efns [] < m.size ∧
          ¬ opening.identity (signatureBase m efns []) then
        none
      else
        some ⟨nodes, none⟩
    else if base < (20 * strings + toUlong idx) % 2 ^ 64 then
      none
    else do
      let es ← (List.range (CInt.wrap strings).toNat).mapM
        (readString m entries base)
      if signatureBase m efns es < m.size ∧
          ¬ opening.identity (signatureBase m efns es) then
        none
      else
        some ⟨nodes, some (loadDictionary m strings es)⟩

end Efl.Eet
