import Efl.Eet.Model

/-
  Eet files: calls on a file that is opened for writing only,
  and the writer of the current format.

  Entries are neither compressed nor ciphered.  The `int`
  sums of the writer are natural numbers here, which is the
  same for files of less than 2^31 bytes.

  Main declarations:
    * `File`
    * `File.write`, `File.aliasTo`, `File.delete`
-/

---
-- Calls
---

namespace Efl.Eet

open Bytes Function

/-
  `Eet_File`, with the mode `EET_FILE_MODE_WRITE`.  `nodes`
  is the hash table of the directory, if there is a header.
-/
structure File where
  nodes : Option Nodes
  ed : Option Dictionary
  writesPending : Bool
  dataSize : Nat

/-
  `eet_open`.  There is no dictionary when there is no memory
  for one.
-/
def File.new (hasDictionary : Bool) : File where
  nodes := none
  ed := if hasDictionary then some Dictionary.new else none
  writesPending := false
  dataSize := 0

/-
  For which allocations of a call there is memory: the header
  and its table, the buffer with the data, the node, the copy
  of the name, and the copy of the data.
-/
structure Allocs where
  header : Bool
  buffer : Bool
  node : Bool
  name : Bool
  copy : Bool

/- The table of the directory, which is made when missing. -/
def File.table (ef : File) (allocs : Allocs) : Option Nodes :=
  match ef.nodes with
  | some nodes => some nodes
  | none => if allocs.header then some fun _ => [] else none

/- `eet_define_data`, for `data` that is not compressed. -/
def defineData (ef : File) (allocs : Allocs) (efn : FileNode)
    (data : Option (List Byte)) (originalSize : Nat) : FileNode :=
  let size := (data.getD []).length
  { efn with
    isAlias := false
    ciphered := false
    compression := false
    compressionType := 0
    size := size
    dataSize := originalSize
    data := if size ≠ 0 ∧ allocs.copy then data else none
    offset := ef.dataSize + 1 }

/- The first node with a name is changed, if there is one. -/
def defineFirst (name : List Byte) (define : FileNode → FileNode) :
    List FileNode → Option (List FileNode)
  | [] => none
  | efn :: efns =>
    if efn.name = name then
      some (define efn :: efns)
    else
      (defineFirst name define efns).map (efn :: ·)

/- A new node, before its data is defined. -/
def newNode (name : CString) : FileNode where
  name := name.chars
  nameAt := none
  nameSize := name.chars.length + 1
  offset := 0
  size := 0
  dataSize := 0
  compressionType := 0
  compression := false
  ciphered := false
  isAlias := false
  data := none

/-
  The loop of `eet_write_cipher` and `eet_alias` over a bucket,
  and what comes after it.  `none` is a fault, where there is
  no memory for the name.
-/
def File.define (ef : File) (allocs : Allocs) (nodes : Nodes)
    (name : CString) (define : FileNode → FileNode) : Option File :=
  let hash := hashGen name.chars
  match defineFirst name.chars define (nodes hash) with
  | some bucket =>
    some
      { ef with
        nodes := some (update nodes hash bucket)
        writesPending := true }
  | none =>
    if ¬ allocs.node then
      some { ef with nodes := some nodes }
    else if ¬ allocs.name then
      none
    else
      some
        { ef with
          nodes := some (update nodes hash
            (define (newNode name) :: nodes hash))
          writesPending := true }

/- `eet_write`, where `comp` is 0. -/
def File.write (ef : File) (allocs : Allocs) (name : CString) (data : List Byte) : Option File :=
  if data = [] then
    some ef
  else
    match ef.table allocs with
    | none => some ef
    | some nodes =>
      ef.define allocs nodes name fun efn =>
        defineData ef allocs efn
          (if allocs.buffer then some data else none)
          data.length

/- `eet_alias`, where `comp` is 0. -/
def File.aliasTo (ef : File) (allocs : Allocs) (name destination : CString) : Option File :=
  match ef.table allocs with
  | none => some ef
  | some nodes =>
    if ¬ allocs.buffer then
      some { ef with nodes := some nodes }
    else
      ef.define allocs nodes name fun efn =>
        { defineData ef allocs efn
            (some (destination.chars ++ [0]))
            (destination.chars.length + 1) with
          isAlias := true }

/- `eet_delete` -/
def File.delete (ef : File) (name : CString) : File :=
  match ef.nodes with
  | none => ef
  | some nodes =>
    let hash := hashGen name.chars
    if ∃ efn ∈ nodes hash, efn.name = name.chars then
      { ef with
        nodes := some (update nodes hash
          ((nodes hash).eraseP fun efn =>
            efn.name = name.chars))
        writesPending := true }
    else
      ef

/-
  `eet_dictionary_string_add` on the dictionary of the file.
-/
def File.stringAdd (ef : File) (memory : Dictionary.Memory)
    (addr : Nat) (string : CString) : Option File :=
  match ef.ed with
  | none => some ef
  | some ed =>
    (ed.stringAdd ⟨addr, string.chars⟩ memory).map fun r =>
      { ef with ed := some r.1 }

/- A call, with its arguments and what memory there is. -/
inductive Call where
  | write (allocs : Allocs) (name : CString)
      (data : List Byte)
  | aliasTo (allocs : Allocs) (name destination : CString)
  | delete (name : CString)
  | stringAdd (memory : Dictionary.Memory) (addr : Nat)
      (string : CString)

def callStep (ef : File) : Call → Option File
  | .write allocs name data => ef.write allocs name data
  | .aliasTo allocs name destination =>
    ef.aliasTo allocs name destination
  | .delete name => some (ef.delete name)
  | .stringAdd memory addr string => ef.stringAdd memory addr string

---
-- The Writer
---

/- A multiple of `ALIGN`. -/
def align (n : Nat) : Nat :=
  (n + 7) / 8 * 8

/- The flags of an entry. -/
def FileNode.flag (efn : FileNode) : Word :=
  (BitVec.ofBool efn.isAlias).setWidth 32 <<< 2 |||
    (BitVec.ofBool efn.ciphered).setWidth 32 <<< 1 |||
    (BitVec.ofBool efn.compression).setWidth 32 |||
    BitVec.ofNat 32 efn.compressionType <<< 3

/- The directory. -/
def writeEntries : Nat → Nat → List FileNode → List Byte
  | _, _, [] => []
  | stringsOffset, dataOffset, efn :: efns =>
    be32 (BitVec.ofNat 32 dataOffset) ++
      be32 (BitVec.ofNat 32 efn.size) ++
      be32 (BitVec.ofNat 32 efn.dataSize) ++
      be32 (BitVec.ofNat 32 stringsOffset) ++
      be32 (BitVec.ofNat 32 efn.nameSize) ++
      be32 efn.flag ++
      writeEntries (stringsOffset + efn.nameSize)
        (align (dataOffset + efn.size)) efns

/- The dictionary; `prev` is a hint for the heads. -/
def writeStrings (hash : Nat → Int) : Nat → Nat → List DictString → List Byte
  | _, _, [] => []
  | offset, j, s :: ss =>
    be32 (BitVec.ofNat 32 s.hash) ++
      be32 (BitVec.ofNat 32 offset) ++
      be32 (BitVec.ofInt 32 s.len) ++
      be32 (if hash s.hash = j then -1 else 0) ++
      be32 (BitVec.ofInt 32 s.next) ++
      writeStrings hash (offset + s.len.toNat) (j + 1) ss

def zeros (n : Nat) : List Byte :=
  List.replicate n 0

/- The data, with `pad` zeros before the next entry. -/
def writeData : Nat → Nat → List FileNode → List Byte
  | _, _, [] => []
  | dataOffset, pad, efn :: efns =>
    let dataEnd := dataOffset + pad + efn.size
    zeros pad ++ efn.data.getD [] ++
      writeData dataEnd (align dataEnd - dataEnd) efns

/- The names, and the strings, with their NULs. -/
def writeNames (efns : List FileNode) : List Byte :=
  efns.flatMap fun efn => efn.name ++ [0]

def writeChars (ss : List DictString) : List Byte :=
  ss.flatMap fun s => s.str.chars ++ [0]

/- The entries in the order of the buckets. -/
def Nodes.entries (nodes : Nodes) : List FileNode :=
  (List.range 256).flatMap nodes

/- The strings of a dictionary, if there is one. -/
def stringsOf (ed : Option Dictionary) : List DictString :=
  match ed with
  | none => []
  | some ed => ed.all

/- Its heads. -/
def headsOf (ed : Option Dictionary) : Nat → Int :=
  match ed with
  | none => fun _ => -1
  | some ed => ed.hash

/- The file with these entries and this dictionary. -/
def fileBytes (efns : List FileNode) (ed : Option Dictionary) : List Byte :=
  let ss := stringsOf ed
  let stringsOffset := tableBytes efns.length ss.length
  let bytesStrings :=
    (efns.map fun efn => efn.name.length + 1).sum +
      (ss.map fun s => s.len.toNat).sum
  let dataOffset := stringsOffset + bytesStrings
  let namesEnd :=
    stringsOffset + (efns.map fun efn => efn.nameSize).sum
  be32 magicFile2 ++ be32 (BitVec.ofNat 32 efns.length) ++
    be32 (BitVec.ofNat 32 ss.length) ++
    writeEntries stringsOffset (align dataOffset) efns ++
    writeStrings (headsOf ed) namesEnd 0 ss ++
    writeNames efns ++ writeChars ss ++
    zeros (align dataOffset - dataOffset) ++
    writeData (align dataOffset) 0 efns

/-
  `eet_flush2`: the file that it writes, if it writes one.
  An entry without data is an error while writing.
-/
def flush2 (ef : File) : Option (List Byte) :=
  match ef.nodes with
  | none => none
  | some nodes =>
    if ¬ ef.writesPending then
      none
    else if ∃ efn ∈ nodes.entries, efn.data = none then
      none
    else
      some (fileBytes nodes.entries ef.ed)

end Efl.Eet
